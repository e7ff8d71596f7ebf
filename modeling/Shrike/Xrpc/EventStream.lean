import Shrike.Cbor.Writer
import Shrike.Data.Utf8

/-!
# Event stream frames

The frames of a subscription: a header and a body in DRISL, and how a message is made from JSON and
turned into JSON again.
-/

namespace Shrike.Xrpc

open Cbor Bytes Cbor.Writer

/-! ### Frames -/

/-- A frame of a subscription: a message with its type and a DRISL body, or an error. -/
inductive Frame where
  | message (t : Option Bytes) (body : Bytes)
  | error (name : Bytes) (message : Option Bytes)

/-- The ways in which a frame cannot be decoded. -/
inductive FrameError where
  | invalidHeader (e : Cbor.Error)
  | missingBody
  | invalidBody (e : Cbor.Error)
  | tooManyItems
  | headerNotMap
  | badOp
  | badT
  | missingOp
  | invalidErrorBody

namespace Frame

/-- Encode a frame into a buffer. -/
def encodeTo : Frame → Writer
  | .message t body =>
      ((match t with
        | some t => (encodeMapHeader 2).andThen ((encodeText (ascii "t")).andThen (encodeText t))
        | none => encodeMapHeader 1).andThen ((encodeText (ascii "op")).andThen
          (encodeI64 1))).andThen (put body)
  | .error name text =>
      (encodeMapHeader 1).andThen ((encodeText (ascii "op")).andThen ((encodeI64 (-1)).andThen
        ((encodeMapHeader (if text.isSome then 2 else 1)).andThen
          ((encodeText (ascii "error")).andThen ((encodeText name).andThen
            (match text with
            | some text => (encodeText (ascii "message")).andThen (encodeText text)
            | none => put []))))))

/-- Encode a frame as one message. -/
def encode (frame : Frame) : Except Rejected Bytes := (frame.encodeTo []).1.map fun _ =>
  (frame.encodeTo []).2

/-- An entry of a header, after the operation and the type that were read. -/
def readHeaderEntry (read : Option ℤ × Option Bytes) (entry : Bytes × Value) :
    Except FrameError (Option ℤ × Option Bytes) :=
  if entry.1 = ascii "op" then
    match entry.2 with
    | .unsigned 1 => .ok (some 1, read.2)
    | .signed (-1) => .ok (some (-1), read.2)
    | _ => .error .badOp
  else if entry.1 = ascii "t" then
    match entry.2 with
    | .text s => .ok (read.1, some s)
    | _ => .error .badT
  else .ok read

/-- An entry of the body of an error, after the name and the message that were read. -/
def readErrorEntry (read : Option Bytes × Option Bytes) (entry : Bytes × Value) :
    Except FrameError (Option Bytes × Option Bytes) :=
  if entry.1 = ascii "error" then
    match entry.2 with
    | .text s => .ok (some s, read.2)
    | _ => .error .invalidErrorBody
  else if entry.1 = ascii "message" then
    match entry.2 with
    | .text s => .ok (read.1, some s)
    | _ => .error .invalidErrorBody
  else .ok read

/-- The error that the body of a frame holds. -/
def readError : Value → Except FrameError Frame
  | .map entries => do
      let (name, text) ← entries.foldlM readErrorEntry (none, none)
      match name with
      | some name => .ok (.error name text)
      | none => .error .invalidErrorBody
  | _ => .error .invalidErrorBody

/-- The frame of a header and a body, which is given as it is and as what it holds. -/
def ofParts (header : Value) (bytes : Bytes) (body : Value) : Except FrameError Frame :=
  match header with
  | .map entries => do
      let (op, t) ← entries.foldlM readHeaderEntry (none, none)
      match op with
      | some 1 => .ok (.message t bytes)
      | some _ => readError body
      | none => .error .missingOp
  | _ => .error .headerNotMap

/-- Decode one message. -/
def decode (bytes : Bytes) : Except FrameError Frame := do
  let (header, rest) ← (decodeValue maxDepth bytes).mapError .invalidHeader
  if rest = [] then .error .missingBody
  else
    let (body, after) ← (decodeValue maxDepth rest).mapError .invalidBody
    if after ≠ [] then .error .tooManyItems else ofParts header rest body

/-! ### JSON -/

/-- The type of a message: that of a definition of the subscription's lexicon is relative to it. -/
def relativeType (nsid typeName : Bytes) : Bytes :=
  match splitOnce (char '#') typeName with
  | some (pre, name) =>
      if char '#' ∉ name ∧ (pre = [] ∨ pre = nsid) then char '#' :: name else typeName
  | none => typeName

/-- The type of a message with the lexicon that it is relative to. -/
def absoluteType (nsid t : Bytes) : Bytes := if t.head? = some (char '#') then nsid ++ t else t

/-- The members of an object without its type. -/
def otherMembers (fields : List (Bytes × Json Number)) : List (Bytes × Json Number) :=
  fields.eraseP fun f => f.1 = ascii "$type"

/-- A JSON value with a type. -/
def withType (typeName : Bytes) : Json Number → Json Number
  | .object fields => .object (fields.setEntry (ascii "$type") (.string typeName))
  | value => value

section

variable [DataEncoding]

/-- A message from JSON. The type of an object is taken out of it. -/
def fromJson (nsid : Bytes) (value : Json Number) : Except JsonError Frame :=
  match value, value.get (ascii "$type") with
  | .object fields, some (.string typeName) => do
      let body ← jsonToDrisl (.object (otherMembers fields)) .any
      .ok (.message (some (relativeType nsid typeName)) body)
  | _, _ => do
      let body ← jsonToDrisl value .any
      .ok (.message none body)

/-- The body of a message as JSON, with its type restored. -/
def toJson (nsid : Bytes) : Frame → Except JsonError (Option (Json Number))
  | .message t body => do
      let value ← drislToJson body
      .ok (some (t.elim value fun t => withType (absoluteType nsid t) value))
  | .error _ _ => .ok none

end

/-! ### Decoding what is encoded -/

theorem encodeMapHeader_writes (len : ℕ) :
  (encodeMapHeader len).Writes (.ok (putHead 5 len))
  := writeTypeValue_writes 5 len

theorem encodeI64_writes (i : ℤ) :
  (encodeI64 i).Writes (.ok (putInteger i))
  := by
  rw [encodeI64, putInteger]
  split_ifs <;> exact writeTypeValue_writes _ _

/-- What the header of a message holds. -/
def messageHeader (t : Option Bytes) : Value :=
  .map ((t.map fun t => (ascii "t", Value.text t)).toList ++ [(ascii "op", .unsigned 1)])

/-- What the header of an error holds. -/
def errorHeader : Value := .map [(ascii "op", .signed (-1))]

/-- What the body of an error holds. -/
def errorBody (name : Bytes) (text : Option Bytes) : Value :=
  .map ((ascii "error", .text name)
    :: (text.map fun text => (ascii "message", Value.text text)).toList)

variable {k₁ k₂ s₁ s₂ bs name nsid bytes header typeName : Bytes}

theorem encode_of_writes {frame : Frame} (h : frame.encodeTo.Writes (.ok bs)) :
  frame.encode = .ok bs
  := by
  rw [encode, h []]
  rfl

/-- A message is encoded as its header and its body. -/
theorem encode_message (t : Option Bytes) (body : Bytes) :
  ∃ header, writeItem (messageHeader t) = .ok header
    ∧ (message t body).encode = .ok (header ++ body)
  := by
  have hop := (encodeText_writes (ascii "op")).andThen (encodeI64_writes 1)
  cases t with
  | none =>
      refine ⟨_, rfl, encode_of_writes ?_⟩
      rw [encodeTo]
      simpa [putInteger] using ((encodeMapHeader_writes 1).andThen hop).andThen (put_writes body)
  | some t =>
      refine ⟨_, rfl, encode_of_writes ?_⟩
      rw [encodeTo]
      have hheader := ((encodeMapHeader_writes 2).andThen
        ((encodeText_writes (ascii "t")).andThen (encodeText_writes t))).andThen hop
      simpa [putInteger] using hheader.andThen (put_writes body)

/-- An error is encoded as its header and its body. -/
theorem encode_error (name : Bytes) (text : Option Bytes) :
  ∃ header body, writeItem errorHeader = .ok header ∧ writeItem (errorBody name text) = .ok body
    ∧ (error name text).encode = .ok (header ++ body)
  := by
  have hwrites : ∀ (len : ℕ) {w : Writer} {bs : Bytes}, w.Writes (.ok bs) →
      ((encodeMapHeader 1).andThen ((encodeText (ascii "op")).andThen ((encodeI64 (-1)).andThen
        ((encodeMapHeader len).andThen ((encodeText (ascii "error")).andThen
          ((encodeText name).andThen w)))))).Writes
        (.ok (putHead 5 1 ++ (putText (ascii "op") ++ (putInteger (-1) ++ (putHead 5 len
          ++ (putText (ascii "error") ++ (putText name ++ bs))))))) := fun len _ _ h =>
    (encodeMapHeader_writes 1).andThen ((encodeText_writes _).andThen
      ((encodeI64_writes (-1)).andThen ((encodeMapHeader_writes _).andThen
        ((encodeText_writes _).andThen ((encodeText_writes name).andThen h)))))
  cases text with
  | none =>
      refine ⟨_, _, rfl, rfl, encode_of_writes ?_⟩
      rw [encodeTo]
      simpa [putInteger] using hwrites 1 (put_writes [])
  | some text =>
      refine ⟨_, _, rfl, rfl, encode_of_writes ?_⟩
      rw [encodeTo]
      simpa [putInteger] using
        hwrites 2 ((encodeText_writes (ascii "message")).andThen (encodeText_writes text))

/-! ### Frames that hold what they can -/

/-- The strings of a frame are texts. -/
def WellFormed : Frame → Prop
  | .message t _ => ∀ s ∈ t, IsText s
  | .error name text => IsText name ∧ ∀ s ∈ text, IsText s

/-- The body of a message is one DRISL item. -/
def HasBody : Frame → Prop
  | .message _ body => ∃ v, Cbor.decode body = .ok v
  | .error _ _ => True

theorem fits_messageHeader {t : Option Bytes} (h : ∀ s ∈ t, IsText s) :
  (messageHeader t).Fits maxDepth
  := by
  have hkeys : IsText (ascii "t") ∧ IsText (ascii "op") := by
    rw [IsText, IsText]
    decide
  refine ⟨?_, ?_⟩
  · cases t with
    | none => simp [maxCollectionLen]
    | some t => simp [maxCollectionLen]
  · intro e he
    rw [List.mem_append] at he
    rcases he with he | he
    · obtain ⟨s, hs, rfl⟩ := Option.map_eq_some_iff.mp (Option.mem_toList.mp he)
      exact ⟨hkeys.1, h s hs⟩
    · rw [List.mem_singleton.mp he]
      refine ⟨hkeys.2, ?_⟩
      show 1 ≤ 2 ^ 63 - 1
      decide

theorem fits_errorHeader :
  errorHeader.Fits maxDepth
  := by
  have hkey : IsText (ascii "op") := by
    rw [IsText]
    decide
  refine ⟨by simp [maxCollectionLen], ?_⟩
  intro e he
  rw [List.mem_singleton.mp he]
  refine ⟨hkey, ?_⟩
  show (-1 : ℤ) < 0 ∧ -(2 ^ 63) ≤ (-1 : ℤ)
  decide

theorem fits_errorBody {text : Option Bytes} (hname : IsText name) (h : ∀ s ∈ text, IsText s) :
  (errorBody name text).Fits maxDepth
  := by
  have hkeys : IsText (ascii "error") ∧ IsText (ascii "message") := by
    rw [IsText, IsText]
    decide
  refine ⟨?_, ?_⟩
  · cases text with
    | none => simp [maxCollectionLen]
    | some t => simp [maxCollectionLen]
  · intro e he
    rcases List.mem_cons.mp he with rfl | he
    · exact ⟨hkeys.1, hname⟩
    · obtain ⟨s, hs, rfl⟩ := Option.map_eq_some_iff.mp (Option.mem_toList.mp he)
      exact ⟨hkeys.2, h s hs⟩

/-- A header and a body that are read one after the other are those of the frame. -/
theorem decode_append {h v : Value} (hheader : writeItem h = .ok header)
    (hfits : h.Fits maxDepth) (hbody : Cbor.decode bytes = .ok v) :
  decode (header ++ bytes) = ofParts h bytes v
  := by
  obtain ⟨⟨w, rest⟩, hread, hrest⟩ := Except.bind_eq_ok.mp hbody
  dsimp only at hrest
  split_ifs at hrest with hempty
  cases hrest
  rw [not_not] at hempty
  have hne : bytes ≠ [] := by
    rintro rfl
    cases hread
  rw [decode, decodeValue_writeItem bytes hfits hheader]
  show (if bytes = [] then (Except.error .missingBody : Except FrameError Frame) else _) = _
  rw [if_neg hne, hread, hempty]
  rfl

/-- A frame is decoded from what it is encoded as. -/
theorem decode_encode {frame : Frame} (hwf : frame.WellFormed) (hbody : frame.HasBody) :
  ∃ bs, frame.encode = .ok bs ∧ decode bs = .ok frame
  := by
  cases frame with
  | message t body =>
      obtain ⟨v, hv⟩ := hbody
      obtain ⟨header, hheader, hencode⟩ := encode_message t body
      refine ⟨_, hencode, ?_⟩
      rw [decode_append hheader (fits_messageHeader hwf) hv]
      cases t with
      | none => rfl
      | some t => rfl
  | error name text =>
      obtain ⟨header, body, hheader, hbody, hencode⟩ := encode_error name text
      refine ⟨_, hencode, ?_⟩
      rw [decode_append hheader fits_errorHeader
        (decode_writeItem (fits_errorBody hwf.1 hwf.2) hbody)]
      cases text with
      | none => rfl
      | some text => rfl

/-! ### Types of messages -/

theorem isText_relativeType (h : IsText typeName) :
  IsText (relativeType nsid typeName)
  := by
  rw [relativeType]
  cases hsplit : splitOnce (char '#') typeName with
  | none => exact h
  | some parts =>
      dsimp only
      split_ifs
      · have htype := splitOnce_some hsplit
        have hutf8 := h.1
        rw [htype, Bytes.utf8] at hutf8
        refine ⟨(utf8From_split ?_ (by decide) (by decide) hutf8).2, ?_⟩
        · rintro b ⟨⟩
          decide
        · have hlength := h.2
          rw [htype, List.length_append] at hlength
          omega
      · exact h

/-- A relative type stands for the absolute one. -/
theorem absoluteType_relativeType (nsid typeName : Bytes) :
  absoluteType nsid (relativeType nsid typeName) = absoluteType nsid typeName
  := by
  rw [relativeType]
  cases hsplit : splitOnce (char '#') typeName with
  | none => rfl
  | some parts =>
      dsimp only
      split_ifs with hrelative
      · have htype := splitOnce_some hsplit
        have hpre := not_mem_of_splitOnce hsplit
        rcases hrelative.2 with hempty | hnsid
        · rw [htype, hempty]
          rfl
        · rw [hnsid] at hpre
          rw [htype, hnsid, absoluteType, List.head?_cons, if_pos rfl]
          cases nsid with
          | nil => rfl
          | cons b nsid =>
              have hne : b ≠ char '#' := by
                rintro rfl
                exact hpre List.mem_cons_self
              rw [absoluteType, List.cons_append, List.head?_cons, if_neg]
              intro heq
              exact hne (Option.some.inj heq)
      · rfl

/-! ### Messages from JSON -/

section

variable [DataEncoding]

/-- The body of a frame is a map that holds some members, each encoded as by itself. -/
def IsMapOf (members : List (Bytes × Json Number)) (body : Bytes) : Prop :=
  ∃ entries, encodeSorted (encodeJsonFields .any members) = .ok entries
    ∧ body = putHead 5 members.length ++ entries

/-- A frame keeps the message that it was made from: its body is a map of the other members, and it
is decoded from what it is encoded as, and read as the normal form of the message with the type made
absolute. -/
structure Keeps (nsid : Bytes) (fields : List (Bytes × Json Number)) (typeName : Bytes)
    (frame : Frame) : Prop where
  body : ∃ t body, frame = message (some t) body ∧ IsMapOf (otherMembers fields) body
  json : ∃ bs value bytes, jsonToDrisl (.object fields) .any = .ok bs
    ∧ drislToJson bs = .ok value ∧ frame.encode = .ok bytes ∧ decode bytes = .ok frame
    ∧ frame.toJson nsid = .ok (some (withType (absoluteType nsid typeName) value))

variable {fields members : List (Bytes × Json Number)}

variable {body nsid typeName : Bytes}

/-- What an object stands for is not a map. -/
theorem not_isMapOf_special {x : Special} (hspecial : special members = .ok (some x))
    (hbody : encodeJson .any (.object members) = .ok body) :
  ¬IsMapOf members body
  := by
  rintro ⟨entries, -, rfl⟩
  obtain ⟨b, arg, hput, hmajor, -⟩ := putHead_collectionLen (by omega : 5 < 8) members.length
  rw [encodeJson, hspecial, hput] at hbody
  cases x with
  | cid c =>
      obtain ⟨hb, -⟩ := List.cons.inj (Except.ok.inj hbody)
      rw [← hb] at hmajor
      cases hmajor
  | bytes bs =>
      obtain ⟨b', arg', hput', hmajor', -⟩ := putHead_collectionLen (by omega : 2 < 8) bs.length
      have heq : putBytes bs = b :: arg ++ entries := Except.ok.inj hbody
      rw [putBytes, hput'] at heq
      obtain ⟨hb, -⟩ := List.cons.inj heq
      rw [hb, hmajor] at hmajor'
      cases hmajor'

theorem fromJson_typed {frame : Frame}
    (htype : fields.lookup (ascii "$type") = some (.string typeName))
    (h : fromJson nsid (.object fields) = .ok frame) :
  ∃ body, encodeJson .any (.object (otherMembers fields)) = .ok body
    ∧ frame = message (some (relativeType nsid typeName)) body
  := by
  have hget : (Json.object fields).get (ascii "$type") = some (.string typeName) := htype
  rw [fromJson.eq_1 _ _ _ hget] at h
  obtain ⟨body, hbody, h⟩ := Except.bind_eq_ok.mp h
  cases h
  exact ⟨body, hbody, rfl⟩

/-- An object with a type stands for itself. -/
theorem special_typed (htype : fields.lookup (ascii "$type") = some (.string typeName)) :
  special fields = .ok none
  := by
  rw [special.eq_def]
  split
  · rename_i key s
    have hkey : ascii "$type" = key := by
      by_contra hne
      rw [List.lookup_cons, beq_false_of_ne hne] at htype
      cases htype
    rw [← hkey]
    rfl
  · rfl

omit [DataEncoding] in
theorem mem_otherMembers {f : Bytes × Json Number} (h : f ∈ otherMembers fields) :
  f ∈ fields
  := List.mem_of_mem_eraseP h

omit [DataEncoding] in
theorem wellFormed_otherMembers (h : Cbor.WellFormed (.object fields)) :
  Cbor.WellFormed (.object (otherMembers fields))
  := by
  refine ⟨?_, ?_⟩
  · exact h.1.sublist (List.eraseP_sublist.map Prod.fst)
  · rw [wellFormedFields_iff]
    intro f hf
    exact wellFormedFields_iff.mp h.2 f (mem_otherMembers hf)

/-- The other members of an object within the limits of the decoder are within them. -/
theorem withinLimits_otherMembers
    (hspecial : special fields = .ok none) (h : WithinLimits maxDepth (.object fields)) :
  WithinLimits maxDepth (.object (otherMembers fields))
  := by
  obtain ⟨hlength, hfields⟩ := Or.resolve_left h (by simp [hspecial])
  refine .inr ⟨?_, ?_⟩
  · exact List.eraseP_sublist.length_le.trans hlength
  · intro f hf
    exact hfields f (mem_otherMembers hf)

/-- The type of a message is put into its other members as into all of them. -/
theorem setEntry_otherMembers
    (hsorted : (fields.map Prod.fst).Pairwise (· < ·)) (value : Json Number) :
  (normaliseFields (otherMembers fields)).setEntry (ascii "$type") value
    = (normaliseFields fields).setEntry (ascii "$type") value
  := by
  have herase : normaliseFields (otherMembers fields)
      = (normaliseFields fields).eraseP fun f => f.1 = ascii "$type" := by
    rw [normaliseFields_eq, normaliseFields_eq, List.eraseP_map]
    rfl
  rw [herase, List.setEntry_eraseP fun _ => decide_eq_true_iff]
  rw [normaliseFields_eq, List.map_map]
  exact hsorted

/-- A map is written if and only if the values of all fields are. -/
theorem encodeSorted_isOk :
  (∃ body, encodeSorted (encodeJsonFields .any fields) = .ok body)
    ↔ ∀ f ∈ fields, ∃ bs, encodeJson .any f.2 = .ok bs
  := by
  constructor
  · rintro ⟨body, h⟩ f hf
    obtain ⟨sorted, parts, hperm, -, hparts, -⟩ := encodeSorted_parts h
    cases hbs : encodeJson .any f.2 with
    | ok bs => exact ⟨bs, rfl⟩
    | error e =>
        have hnone := Except.toOption_mapM_eq_none (hperm.mem_iff.mpr hf)
          (f := fun f => (encodeJson .any f.2).map fun value => putText f.1 ++ value)
          (by rw [hbs]; rfl)
        rw [hparts] at hnone
        cases hnone
  · intro h
    rw [encodeSorted, encodeJsonFields_eq]
    obtain ⟨parts, hparts⟩ := Except.exists_mapM_eq_ok (l := ((fields.map fun f =>
        (f.1, encodeJson .any f.2)).insertionSort fun a b => cborKeyCmp a.1 b.1 ≠ .gt))
        (f := fun field => field.2.map fun value => putText field.1 ++ value) (by
      intro field hfield
      obtain ⟨f, hf, rfl⟩ := List.mem_map.mp ((List.perm_insertionSort _ _).mem_iff.mp hfield)
      obtain ⟨bs, hbs⟩ := h f hf
      exact ⟨putText f.1 ++ bs, congrArg (Except.map _) hbs⟩)
    exact ⟨parts.flatten, by rw [hparts]; rfl⟩

/-- An object with a type is written if its other members are. -/
theorem exists_jsonToDrisl (hwf : Cbor.WellFormed (.object fields))
    (htype : fields.lookup (ascii "$type") = some (.string typeName))
    (hspecial : special (otherMembers fields) = .ok none)
    (hbody : encodeJson .any (.object (otherMembers fields)) = .ok body) :
  ∃ bs, jsonToDrisl (.object fields) .any = .ok bs
  := by
  rw [encodeJson, hspecial] at hbody
  obtain ⟨entries, hentries, -⟩ := Except.bind_eq_ok.mp hbody
  have hothers := encodeSorted_isOk.mp ⟨entries, hentries⟩
  have hfields : ∀ f ∈ fields, ∃ bs, encodeJson .any f.2 = .ok bs := by
    intro f hf
    by_cases hkey : f.1 = ascii "$type"
    · have hlookup := List.lookup_of_mem (hwf.1.imp ne_of_lt) hf
      rw [hkey, htype] at hlookup
      rw [← Option.some.inj hlookup]
      exact ⟨putText typeName, rfl⟩
    · exact hothers f ((List.mem_eraseP_of_neg (by simpa using hkey)).mpr hf)
  obtain ⟨all, hall⟩ := encodeSorted_isOk.mpr hfields
  rw [jsonToDrisl, encodeJson, special_typed htype]
  exact ⟨_, Except.bind_eq_ok.mpr ⟨all, hall, rfl⟩⟩

/-- A message within the limits of the decoder whose other members stand for themselves is kept. -/
theorem keeps_of_special {value : JsonValue} {frame : Frame} (hvalue : value.json = .object fields)
    (htype : fields.lookup (ascii "$type") = some (.string typeName))
    (hframe : fromJson nsid (.object fields) = .ok frame)
    (hspecial : special (otherMembers fields) = .ok none)
    (hlimits : WithinLimits maxDepth (.object fields)) :
  Keeps nsid fields typeName frame
  := by
  have hwf : Cbor.WellFormed (.object fields) := hvalue ▸ value.wellFormed
  obtain ⟨body, hbody, rfl⟩ := fromJson_typed htype hframe
  constructor
  · refine ⟨_, body, rfl, ?_⟩
    rw [encodeJson, hspecial] at hbody
    obtain ⟨entries, hentries, heq⟩ := Except.bind_eq_ok.mp hbody
    cases heq
    exact ⟨entries, hentries, rfl⟩
  · obtain ⟨bs, hbs⟩ := exists_jsonToDrisl hwf htype hspecial hbody
    have hothers := jsonToDrisl_read ⟨.object (otherMembers fields), wellFormed_otherMembers hwf⟩
      .any (withinLimits_otherMembers (special_typed htype) hlimits) hbody
    have hnormal := (jsonToDrisl_read ⟨.object fields, hwf⟩ .any hlimits hbs).2
    rw [normalise_object (special_typed htype)] at hnormal
    have htext : IsText typeName := (wellFormedFields_iff.mp hwf.2 _ (List.mem_of_lookup htype)).2
    have htyped : (message (some (relativeType nsid typeName)) body).WellFormed := by
      rintro s ⟨⟩
      exact isText_relativeType htext
    obtain ⟨bytes, hbytes, hframe⟩ := decode_encode htyped hothers.1
    refine ⟨bs, _, bytes, hbs, hnormal, hbytes, hframe, ?_⟩
    rw [toJson, hothers.2, normalise_object hspecial, Except.ok_bind]
    dsimp only [Option.elim, withType]
    rw [absoluteType_relativeType, setEntry_otherMembers hwf.1]

/-- Every frame whose body is one item is decoded from what it is encoded as. A message that is made
from an object with a type is kept if and only if the other members of the object do not stand for
a link or for bytes, and the object is within the limits of the decoder. -/
theorem frames_keep_iff :
  (∀ frame : Frame, frame.WellFormed → frame.HasBody →
    ∃ bs, frame.encode = .ok bs ∧ decode bs = .ok frame)
  ∧ ∀ (nsid : Bytes) (value : JsonValue) (fields : List (Bytes × Json Number)) (typeName : Bytes)
      (frame : Frame), value.json = .object fields →
      fields.lookup (ascii "$type") = some (.string typeName) →
      fromJson nsid (.object fields) = .ok frame →
      (Keeps nsid fields typeName frame ↔
        (∀ x, special (otherMembers fields) ≠ .ok (some x))
          ∧ WithinLimits maxDepth (.object fields))
  := by
  constructor
  · intro frame hwf hbody
    exact decode_encode hwf hbody
  · intro nsid value fields typeName frame hvalue htype hframe
    obtain ⟨body, hbody, rfl⟩ := fromJson_typed htype hframe
    constructor
    · intro hkeeps
      constructor
      · intro x hspecial
        obtain ⟨t, bs, heq, hmap⟩ := hkeeps.body
        cases heq
        exact not_isMapOf_special hspecial hbody hmap
      · obtain ⟨bs, read, -, hbs, hread, -⟩ := hkeeps.json
        cases hdecode : Cbor.decode bs with
        | error e =>
            rw [drislToJson, hdecode] at hread
            cases hread
        | ok v =>
            exact withinLimits_of_decode ⟨.object fields, hvalue ▸ value.wellFormed⟩ hbs hdecode
    · rintro ⟨hspecial, hlimits⟩
      refine keeps_of_special hvalue htype hframe ?_ hlimits
      cases h : special (otherMembers fields) with
      | error e =>
          rw [encodeJson, h] at hbody
          cases hbody
      | ok x =>
          cases x with
          | none => rfl
          | some x => exact absurd h (hspecial x)

end

/-! ### A message of text and a message of bytes -/

attribute [local instance] DataEncoding.standard

/-- An object with a type and some text. -/
def typedText : List (Bytes × Json Number) :=
  [(ascii "$type", .string (ascii "#x")), (ascii "text", .string (ascii "hi"))]

/-- An object with a type, and `$bytes` that are base64. -/
def typedBytes : List (Bytes × Json Number) :=
  [(ascii "$bytes", .string (ascii "aGk=")), (ascii "$type", .string (ascii "#x"))]

theorem wellFormed_pair (hlt : k₁ < k₂) (h : ∀ s ∈ [k₁, k₂, s₁, s₂], IsText s) :
  Cbor.WellFormed (.object [(k₁, .string s₁), (k₂, .string s₂)])
  := by
  refine ⟨?_, ?_⟩
  · simpa using hlt
  · rw [wellFormedFields_iff]
    intro f hf
    rcases List.mem_pair.mp hf with rfl | rfl
    · exact ⟨h k₁ (by simp), h s₁ (by simp)⟩
    · exact ⟨h k₂ (by simp), h s₂ (by simp)⟩

/-- The text of a message is kept, and an error is decoded from what it is encoded as. -/
theorem text_kept :
  (∃ bs, (error (ascii "e") none).encode = .ok bs ∧ decode bs = .ok (error (ascii "e") none))
  ∧ ∃ frame, fromJson (ascii "a.b.c") (.object typedText) = .ok frame
    ∧ Keeps (ascii "a.b.c") typedText (ascii "#x") frame
  := by
  have hwf : Cbor.WellFormed (.object typedText) :=
    wellFormed_pair (by decide) (by simp only [IsText]; decide)
  have hframe : fromJson (ascii "a.b.c") (.object typedText) = .ok (message (some (ascii "#x"))
      [161, 100, 116, 101, 120, 116, 98, 104, 105]) := rfl
  have hothers : special (otherMembers typedText) = .ok none := rfl
  refine ⟨?_, _, hframe, ?_⟩
  · refine frames_keep_iff.1 _ ⟨?_, ?_⟩ trivial
    · rw [IsText]
      decide
    · rintro s ⟨⟩
  · refine (frames_keep_iff.2 _ ⟨.object typedText, hwf⟩ _ _ _ rfl rfl hframe).mpr ⟨?_, ?_⟩
    · intro x hx
      rw [hothers] at hx
      cases hx
    · refine .inr ⟨by decide, ?_⟩
      intro f hf
      rcases List.mem_pair.mp hf with rfl | rfl <;> trivial

/-- The body of a message with `$bytes` is those bytes, and no map. -/
theorem bytes_not_kept :
  ∃ (value : JsonValue) (frame : Frame), value.json = .object typedBytes
    ∧ fromJson (ascii "a.b.c") value.json = .ok frame
    ∧ ¬Keeps (ascii "a.b.c") typedBytes (ascii "#x") frame
  := by
  have hwf : Cbor.WellFormed (.object typedBytes) :=
    wellFormed_pair (by decide) (by simp only [IsText]; decide)
  refine ⟨⟨.object typedBytes, hwf⟩, message (some (ascii "#x")) [0x42, 104, 105], rfl, rfl, ?_⟩
  have hspecial : special (otherMembers typedBytes) = .ok (some (.bytes [104, 105])) := rfl
  intro hkeeps
  obtain ⟨t, body, heq, hmap⟩ := hkeeps.body
  cases heq
  exact not_isMapOf_special hspecial rfl hmap

end Frame

end Shrike.Xrpc
