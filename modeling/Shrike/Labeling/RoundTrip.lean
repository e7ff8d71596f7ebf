import Shrike.Cbor.Accepted
import Shrike.Cbor.Encoding
import Shrike.Labeling.Label

/-!
# Labels as maps

The map that a label is written as: its entries are in the order of their keys, their number is
the one in the header, and reading them gives the members back.
-/

namespace Shrike.Labeling

open Bytes Cbor Except Syntax
open Cbor.Writer (inTurn put_writes)

/-- The keys of a label in order. -/
def labelKeys : List Bytes :=
  ["cid", "cts", "exp", "neg", "sig", "src", "uri", "val", "ver"].map ascii

/-- The entry for a value, if there is one. -/
def entryOf {α : Type} (key : String) (value : α → Value) (a : Option α) : List (Bytes × Value) :=
  (a.map fun a => (ascii key, value a)).toList

/-- The value of a version. -/
def verValue (ver : Int64) : Value :=
  if 0 ≤ ver.toInt then .unsigned ver.toInt.toNat else .signed ver.toInt

section

variable [Base32Decoding]

/-- The entries of members, in the order of their keys. -/
def Members.entries (m : Members) : List (Bytes × Value) :=
  entryOf "cid" (fun cid => .text (cidToString cid)) m.cid ++
    (entryOf "cts" .text m.cts ++ (entryOf "exp" .text m.exp ++ (entryOf "neg" .bool m.neg ++
      (entryOf "sig" .bytes m.sig ++ (entryOf "src" .text m.src ++ (entryOf "uri" .text m.uri ++
        (entryOf "val" .text m.val ++ entryOf "ver" verValue m.ver)))))))

omit [Base32Decoding] in
/-- The members of a label, with its signature or without it. -/
def Label.members (label : Label) (includeSig : Bool) : Members where
  ver := label.ver
  src := some label.src.raw
  uri := some label.uri
  cid := label.cid
  val := some label.val
  neg := if label.neg then some true else none
  cts := some label.cts.raw
  exp := label.exp.map Datetime.raw
  sig := if includeSig then label.sig else none

/-! ### Writing -/

omit [Base32Decoding] in
theorem keys_entryOf {α : Type} (key : String) (value : α → Value) (a : Option α) :
  ((entryOf key value a).map Prod.fst).Sublist [ascii key]
  := by
  cases a with
  | none => exact List.nil_sublist _
  | some a => exact List.Sublist.refl _

theorem keys_entries (m : Members) :
  (m.entries.map Prod.fst).Sublist labelKeys
  := by
  simp only [Members.entries, List.map_append]
  show List.Sublist _ ([ascii "cid"] ++ ([ascii "cts"] ++ ([ascii "exp"] ++ ([ascii "neg"] ++
    ([ascii "sig"] ++ ([ascii "src"] ++ ([ascii "uri"] ++ ([ascii "val"] ++ [ascii "ver"]))))))))
  exact ((keys_entryOf ..).append ((keys_entryOf ..).append ((keys_entryOf ..).append
    ((keys_entryOf ..).append ((keys_entryOf ..).append ((keys_entryOf ..).append
      ((keys_entryOf ..).append ((keys_entryOf ..).append (keys_entryOf ..)))))))))

omit [Base32Decoding] in
theorem labelKeys_pairwise :
  labelKeys.Pairwise fun a b => keyLt a b = true
  := by decide

/-- The entries of members are in the order of their keys. -/
theorem entries_pairwise (m : Members) :
  m.entries.Pairwise fun a b => keyLt a.1 b.1 = true
  := List.pairwise_map.mp (labelKeys_pairwise.sublist (keys_entries m))

/-- The number of fields is the number of entries. -/
theorem length_entries (label : Label) (includeSig : Bool) :
  (label.members includeSig).entries.length = label.fieldCount includeSig
  := by
  obtain ⟨ver, src, uri, cid, val, neg, cts, exp, sig⟩ := label
  cases ver <;> cases cid <;> cases neg <;> cases exp <;> cases sig <;> cases includeSig <;> rfl

omit [Base32Decoding] in
/-- The encodings of entries, one after the other. -/
def entryBytes (entries : List (Bytes × Value)) : Bytes :=
  entries.flatMap fun e => putText e.1 ++ e.2.encoding

omit [Base32Decoding] in
theorem entryBytes_append (entries entries' : List (Bytes × Value)) :
  entryBytes (entries ++ entries') = entryBytes entries ++ entryBytes entries'
  := List.flatMap_append

variable {key : String}

omit [Base32Decoding] in
theorem encodeField_writes {w : Writer} {v : Value} (h : w.Writes (.ok v.encoding)) :
  (encodeField key w).Writes (.ok (entryBytes [(ascii key, v)]))
  := by
  rw [entryBytes, List.flatMap_singleton]
  exact (encodeText_writes _).andThen h

omit [Base32Decoding] in
theorem encodeTextField_writes (key : String) (s : Bytes) :
  (encodeField key (encodeText s)).Writes (.ok (entryBytes [(ascii key, .text s)]))
  := encodeField_writes (encodeText_writes s)

omit [Base32Decoding] in
theorem encodeOptional_writes {α : Type} {encode : α → Writer} {value : α → Value}
    (h : ∀ a, (encode a).Writes (.ok (value a).encoding)) (a : Option α) :
  (encodeOptional key encode a).Writes (.ok (entryBytes (entryOf key value a)))
  := by
  cases a with
  | none => exact put_writes []
  | some a => exact encodeField_writes (h a)

omit [Base32Decoding] in
theorem encodeI64_writes (ver : Int64) :
  (encodeI64 ver.toInt).Writes (.ok (verValue ver).encoding)
  := by
  rw [encodeI64, verValue]
  split_ifs with h
  · exact writeTypeValue_writes 0 _
  · rw [Value.encoding, if_neg h]
    exact writeTypeValue_writes 1 _

/-- The bytes of a map of members. -/
def Members.bytes (m : Members) : Bytes := putHead 5 m.entries.length ++ entryBytes m.entries

theorem encodeLabelFields_writes (label : Label) (includeSig : Bool) :
  (encodeLabelFields label includeSig).Writes (.ok (label.members includeSig).bytes)
  := by
  have hneg : (if label.neg then encodeField "neg" (encodeBool true) else put []).Writes
      (.ok (entryBytes (entryOf "neg" .bool (if label.neg then some true else none)))) := by
    cases label.neg with
    | true =>
        have htrue : (encodeBool true).Writes (.ok (Value.bool true).encoding) := put_writes _
        exact encodeField_writes htrue
    | false => exact put_writes []
  have hsig : (if includeSig then encodeOptional "sig" encodeBytes label.sig else put []).Writes
      (.ok (entryBytes (entryOf "sig" .bytes (if includeSig then label.sig else none)))) := by
    cases includeSig with
    | true =>
        exact encodeOptional_writes (fun b => (writeTypeValue_writes 2 b.length).andThen
          (put_writes b)) label.sig
    | false => exact put_writes []
  have hcid : (encodeOptional "cid" (fun cid => encodeText (cidToString cid)) label.cid).Writes
      (.ok (entryBytes (entryOf "cid" (fun cid => .text (cidToString cid)) label.cid))) :=
    encodeOptional_writes (fun cid => encodeText_writes (cidToString cid)) label.cid
  have hexp : (encodeOptional "exp" (fun exp => encodeText exp.raw) label.exp).Writes
      (.ok (entryBytes (entryOf "exp" .text (label.exp.map Datetime.raw)))) := by
    rw [entryOf, Option.map_map]
    exact encodeOptional_writes (fun exp => encodeText_writes exp.raw) label.exp
  have hver : (encodeOptional "ver" (fun ver => encodeI64 ver.toInt) label.ver).Writes
      (.ok (entryBytes (entryOf "ver" verValue label.ver))) :=
    encodeOptional_writes encodeI64_writes label.ver
  have hfields := hcid.andThen ((encodeTextField_writes "cts" label.cts.raw).andThen (hexp.andThen
    (hneg.andThen (hsig.andThen ((encodeTextField_writes "src" label.src.raw).andThen
      ((encodeTextField_writes "uri" label.uri).andThen
        ((encodeTextField_writes "val" label.val).andThen (hver.andThen (put_writes [])))))))))
  have hall := (writeTypeValue_writes 5 (label.fieldCount includeSig)).andThen hfields
  rw [Members.bytes, length_entries]
  simp only [Members.entries, entryBytes_append]
  rw [List.append_nil] at hall
  exact hall

/-- A label is written as the bytes of its members. -/
theorem encoded_encodeLabelFields (label : Label) (includeSig : Bool) :
  encoded (encodeLabelFields label includeSig) = .ok (label.members includeSig).bytes
  := by
  rw [encoded, encodeLabelFields_writes label includeSig []]
  rfl

variable {m : Members}

/-- The values of entries are written as they are. -/
theorem writeItem_of_mem_entries {e : Bytes × Value} (h : e ∈ m.entries) :
  writeItem e.2 = .ok e.2.encoding
  := by
  have hver : ∀ ver, writeItem (verValue ver) = .ok (verValue ver).encoding := by
    intro ver
    rw [verValue]
    split_ifs <;> rfl
  simp only [Members.entries, entryOf, List.mem_append, Option.mem_toList,
    Option.map_eq_some_iff] at h
  rcases h with ⟨a, -, rfl⟩ | ⟨a, -, rfl⟩ | ⟨a, -, rfl⟩ | ⟨a, -, rfl⟩ | ⟨a, -, rfl⟩ | ⟨a, -, rfl⟩ |
    ⟨a, -, rfl⟩ | ⟨a, -, rfl⟩ | ⟨a, -, rfl⟩
  all_goals first | rfl | exact hver a

/-- The bytes of members are what the map of their entries is written as. -/
theorem writeItem_entries (m : Members) :
  writeItem (.map m.entries) = .ok m.bytes
  := by
  have hentries := writeEntries_of_pairwise (f := id) (p := none)
    (fun e he => writeItem_of_mem_entries he) (entries_pairwise m) nofun
  have hid : m.entries.map (fun e => (e.1, id e.2)) = m.entries := List.map_id _
  rw [hid] at hentries
  rw [writeItem, hentries]
  rfl

/-! ### Reading -/

omit [Base32Decoding] in
theorem foldlM_entryOf {α σ : Type} {value : α → Value} {a : Option α}
    {step : σ → Bytes × Value → Except LabelError σ} {m m' : σ}
    (hsome : ∀ x, a = some x → step m (ascii key, value x) = .ok m') (hnone : a = none → m = m') :
  (entryOf key value a).foldlM step m = .ok m'
  := by
  cases a with
  | none =>
      rw [hnone rfl]
      rfl
  | some x =>
      show (step m (ascii key, value x) >>= fun m => pure m) = _
      rw [hsome x rfl]
      rfl

theorem read_cid (m : Members) (cid : Cid) :
  m.read (ascii "cid", .text (cidToString cid)) = .ok { m with cid := some cid }
  := by
  show (textOf "cid must be a text string" (.text (cidToString cid)) >>= fun s =>
    (Cid.fromStr s).mapError _ >>= fun cid => _) = _
  rw [textOf, ok_bind, fromStr_cidToString]
  rfl

/-- The integer that a version is written as is read back. -/
theorem read_ver (m : Members) (ver : Int64) :
  m.read (ascii "ver", verValue ver) = .ok { m with ver := some ver }
  := by
  rw [verValue]
  split_ifs with h
  · have hnat : Int64.ofNat ver.toInt.toNat = ver := by
      rw [← Int64.ofInt_eq_ofNat, Int.toNat_of_nonneg h, Int64.ofInt_toInt]
    show Except.ok { m with ver := some (Int64.ofNat ver.toInt.toNat) } = _
    rw [hnat]
  · show Except.ok { m with ver := some (Int64.ofInt ver.toInt) } = _
    rw [Int64.ofInt_toInt]

/-- Reading the entries of members gives the members. -/
theorem foldlM_read_entries (m : Members) :
  m.entries.foldlM Members.read Members.none = .ok m
  := by
  obtain ⟨ver, src, uri, cid, val, neg, cts, exp, sig⟩ := m
  have hcid : (entryOf "cid" (fun cid => .text (cidToString cid)) cid).foldlM Members.read
      Members.none = .ok ⟨none, none, none, cid, none, none, none, none, none⟩ := by
    apply foldlM_entryOf
    · rintro x rfl
      exact read_cid Members.none x
    · rintro rfl
      rfl
  have hcts : (entryOf "cts" .text cts).foldlM Members.read
      ⟨none, none, none, cid, none, none, none, none, none⟩ = .ok ⟨none, none, none, cid, none, none, cts, none, none⟩ := by
    apply foldlM_entryOf
    · rintro x rfl
      rfl
    · rintro rfl
      rfl
  have hexp : (entryOf "exp" .text exp).foldlM Members.read
      ⟨none, none, none, cid, none, none, cts, none, none⟩ = .ok ⟨none, none, none, cid, none, none, cts, exp, none⟩ := by
    apply foldlM_entryOf
    · rintro x rfl
      rfl
    · rintro rfl
      rfl
  have hneg : (entryOf "neg" .bool neg).foldlM Members.read
      ⟨none, none, none, cid, none, none, cts, exp, none⟩ = .ok ⟨none, none, none, cid, none, neg, cts, exp, none⟩ := by
    apply foldlM_entryOf
    · rintro x rfl
      rfl
    · rintro rfl
      rfl
  have hsig : (entryOf "sig" .bytes sig).foldlM Members.read
      ⟨none, none, none, cid, none, neg, cts, exp, none⟩ = .ok ⟨none, none, none, cid, none, neg, cts, exp, sig⟩ := by
    apply foldlM_entryOf
    · rintro x rfl
      rfl
    · rintro rfl
      rfl
  have hsrc : (entryOf "src" .text src).foldlM Members.read
      ⟨none, none, none, cid, none, neg, cts, exp, sig⟩ = .ok ⟨none, src, none, cid, none, neg, cts, exp, sig⟩ := by
    apply foldlM_entryOf
    · rintro x rfl
      rfl
    · rintro rfl
      rfl
  have huri : (entryOf "uri" .text uri).foldlM Members.read
      ⟨none, src, none, cid, none, neg, cts, exp, sig⟩ = .ok ⟨none, src, uri, cid, none, neg, cts, exp, sig⟩ := by
    apply foldlM_entryOf
    · rintro x rfl
      rfl
    · rintro rfl
      rfl
  have hval : (entryOf "val" .text val).foldlM Members.read
      ⟨none, src, uri, cid, none, neg, cts, exp, sig⟩ = .ok ⟨none, src, uri, cid, val, neg, cts, exp, sig⟩ := by
    apply foldlM_entryOf
    · rintro x rfl
      rfl
    · rintro rfl
      rfl
  have hver : (entryOf "ver" verValue ver).foldlM Members.read
      ⟨none, src, uri, cid, val, neg, cts, exp, sig⟩ = .ok ⟨ver, src, uri, cid, val, neg, cts, exp, sig⟩ := by
    apply foldlM_entryOf
    · rintro x rfl
      exact read_ver _ x
    · rintro rfl
      rfl
  simp only [Members.entries, List.foldlM_append, hcid, ok_bind, hcts, hexp, hneg, hsig, hsrc, huri,
    hval, hver]

omit [Base32Decoding] in
/-- The members of a label make up the label. -/
theorem label_members (label : Label) (includeSig : Bool) :
  (label.members includeSig).label
    = .ok { label with sig := if includeSig then label.sig else none }
  := by
  obtain ⟨ver, src, uri, cid, val, neg, cts, exp, sig⟩ := label
  have hneg : (if neg then some true else none : Option Bool).getD false = neg := by
    cases neg <;> rfl
  have hexp : (exp.map Datetime.raw).mapM (fun s =>
      (Datetime.tryFrom s).mapError (LabelError.invalidValue "exp datetime")) = .ok exp := by
    cases exp with
    | none => rfl
    | some exp =>
        show (Datetime.tryFrom exp.raw).mapError _ >>= _ = _
        rw [Datetime.tryFrom_eq_ok.mpr rfl]
        rfl
  simp only [Members.label, Label.members, required, ok_bind, Did.tryFrom_eq_ok.mpr rfl,
    Datetime.tryFrom_eq_ok.mpr rfl, Except.mapError, hneg]
  simp only [Except.mapError] at hexp
  rw [hexp]
  rfl

/-- What every label in memory is: its strings are UTF-8 of a length that the address space holds,
and so is the length of its signature. -/
structure Label.InMemory (label : Label) : Prop where
  src : IsText label.src.raw
  uri : IsText label.uri
  val : IsText label.val
  cts : IsText label.cts.raw
  exp : ∀ exp, label.exp = some exp → IsText exp.raw
  sig : ∀ sig, label.sig = some sig → sig.length < 2 ^ 64

theorem isText_cidToString (c : Cid) :
  IsText (cidToString c)
  := by
  refine ⟨(cidToString_ascii c).utf8, ?_⟩
  rw [length_cidToString]
  omega

omit [Base32Decoding] in
theorem fits_verValue (ver : Int64) (budget : ℕ) :
  (verValue ver).Fits (budget + 1)
  := by
  have hlow := ver.le_toInt
  have hhigh := ver.toInt_lt
  rw [verValue]
  split_ifs with h
  · show ver.toInt.toNat ≤ 2 ^ 63 - 1
    omega
  · exact ⟨by omega, hlow⟩

omit [Base32Decoding] in
theorem isText_of_mem_labelKeys :
  ∀ key ∈ labelKeys, IsText key
  := by
  have hall : ∀ key ∈ labelKeys, Bytes.utf8 key = true ∧ key.length = 3 := by decide
  intro key hkey
  obtain ⟨hutf8, hlength⟩ := hall key hkey
  exact ⟨hutf8, by omega⟩

/-- The entries of members are within the limits of the decoder if their values are. -/
theorem fits_entries (h : ∀ e ∈ m.entries, e.2.Fits 63) :
  (Value.map m.entries).Fits maxDepth
  := by
  have hlength : m.entries.length ≤ labelKeys.length := by
    have hle := (keys_entries m).length_le
    rwa [List.length_map] at hle
  refine ⟨hlength.trans (by decide), ?_⟩
  intro e he
  exact ⟨isText_of_mem_labelKeys _ ((keys_entries m).subset (List.mem_map_of_mem he)), h e he⟩

/-- The values of a label in memory are within the limits of the decoder. -/
theorem fits_of_inMemory {label : Label} (h : label.InMemory) (includeSig : Bool) :
  ∀ e ∈ (label.members includeSig).entries, e.2.Fits 63
  := by
  intro e he
  simp only [Members.entries, entryOf, List.mem_append, Option.mem_toList,
    Option.map_eq_some_iff] at he
  rcases he with ⟨a, -, rfl⟩ | ⟨a, ha, rfl⟩ | ⟨a, ha, rfl⟩ | ⟨a, -, rfl⟩ | ⟨a, ha, rfl⟩ |
    ⟨a, ha, rfl⟩ | ⟨a, ha, rfl⟩ | ⟨a, ha, rfl⟩ | ⟨a, -, rfl⟩
  · exact isText_cidToString a
  · cases ha
    exact h.cts
  · obtain ⟨exp, hexp, rfl⟩ := Option.map_eq_some_iff.mp ha
    exact h.exp exp hexp
  · trivial
  · cases includeSig with
    | true => exact h.sig a ha
    | false => cases ha
  · cases ha
    exact h.src
  · cases ha
    exact h.uri
  · cases ha
    exact h.val
  · exact fits_verValue a 62

/-- The bytes of members whose values are within the limits decode to the map of their entries. -/
theorem decode_bytes (h : ∀ e ∈ m.entries, e.2.Fits 63) :
  decode m.bytes = .ok (.map m.entries)
  := decode_eq_ok_iff.mpr ⟨fits_entries h, writeItem_entries m⟩

/-- A label in memory is read back from what is written of it. -/
theorem decodeLabel_bytes {label : Label} (h : label.InMemory) (includeSig : Bool) :
  decodeLabel (label.members includeSig).bytes
    = .ok { label with sig := if includeSig then label.sig else none }
  := by
  rw [decodeLabel, decode_bytes (fits_of_inMemory h includeSig)]
  show ((label.members includeSig).entries.foldlM Members.read Members.none >>= fun m => m.label) = _
  rw [foldlM_read_entries, ok_bind, label_members]

end

end Shrike.Labeling
