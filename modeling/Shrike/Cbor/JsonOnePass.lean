import Shrike.Cbor.Accepted
import Shrike.Cbor.JsonWriting

/-!
# DRISL to JSON, in one pass and by way of a tree

What the JSON writer appends is the compact text of the JSON value that the decoded value converts
to, and it fails exactly when the input does not decode or the conversion fails.
-/

namespace Shrike.Cbor

open Bytes Stateful Decoder

/-! ### The text of what a value converts to -/

/-- The text of a JSON number. -/
def Number.text (floatText : ℕ → Bytes) : Number → Bytes
  | .posInt n _ => toText 10 n
  | .negInt i _ => char '-' :: toText 10 i.natAbs
  | .float bits _ => floatText bits

/-- The base32 alphabet, in upper case. -/
def base32Upper : Bytes := ascii "ABCDEFGHIJKLMNOPQRSTUVWXYZ234567"

theorem jsonString_clean {s : Bytes} (h : ∀ b ∈ s, clean b = true) :
  jsonString s = 0x22 :: s ++ [0x22]
  := by rw [jsonString, flatMap_jsonEscape_clean h]

theorem Number.text_ofInt (floatText : ℕ → Bytes) {i : ℤ} (h : -(2 ^ 63) ≤ i ∧ i < 2 ^ 63) :
  (Number.ofInt i h).text floatText = (if i < 0 then [char '-'] else []) ++ toText 10 i.natAbs
  := by
  rw [Number.ofInt]
  split_ifs with hneg hpos
  · omega
  · rw [Number.text, List.nil_append]
    congr 1
    omega
  · rfl
  · omega

/-- A float, if there is one, is an error. -/
def unlessFloat {α : Type} (a : α) : Option ℕ → Except JsonError α
  | none => .ok a
  | some bits => .error (.dataModel (.float bits))

theorem map_eq_unlessFloat {α β : Type} {x : Except JsonError α} {f : α → β} {b : β}
    {float : Option ℕ} :
  x.map f = unlessFloat b float
    ↔ (float = none ∧ ∃ a, x = .ok a ∧ f a = b)
      ∨ ∃ bits, float = some bits ∧ x = .error (.dataModel (.float bits))
  := by
  cases x with
  | error e => cases float <;> simp [unlessFloat, Except.map]
  | ok a => cases float <;> simp [unlessFloat, Except.map]

/-- An object with a single field that holds a string without escapes. -/
theorem compact_single {number : Number → Bytes} {key : String} {start s : Bytes}
    (hstart : jsonString (ascii key) ++ [char ':', 0x22] = start)
    (hs : ∀ b ∈ s, clean b = true) :
  (single key s).compact number = 0x7b :: start ++ s ++ [0x22, 0x7d]
  := by
  rw [single, Json.compact, Json.compactFields, Json.compactFields, Json.compact,
    jsonString_clean hs, ← hstart]
  simp [join]

section

variable [DataEncoding]

/-- Base64 and base32 are texts in their alphabets. -/
structure InAlphabets : Prop where
  base64 (data : Bytes) : ∀ b ∈ DataEncoding.base64 data, b ∈ base64Alphabet
  base32 (data : Bytes) : ∀ b ∈ DataEncoding.base32 data, b ∈ base32Upper

theorem compact_bytes (h : InAlphabets) (floatText : ℕ → Bytes) (b : Bytes) :
  (single "$bytes" (DataEncoding.base64 b)).compact (Number.text floatText)
    = (Value.bytes b).jsonText
  := by
  have hclean : ∀ c ∈ base64Alphabet, clean c = true := by decide +kernel
  exact compact_single (by decide) fun c hc => hclean c (h.base64 b c hc)

theorem compact_cid (h : InAlphabets) (floatText : ℕ → Bytes) (c : Cid) :
  (single "$link" (cidToString c)).compact (Number.text floatText) = (Value.cid c).jsonText
  := by
  have hclean : ∀ c ∈ base32Upper, clean (toAsciiLowercase c) = true := by decide +kernel
  apply compact_single (by decide)
  intro b hb
  rcases List.mem_cons.mp hb with rfl | hb
  · decide
  · obtain ⟨c', hc', rfl⟩ := List.mem_map.mp hb
    exact hclean c' (h.base32 _ c' hc')

theorem keys_entryTexts (entries : List (Bytes × Value)) :
  (entryTexts entries).map Prod.fst = entries.map Prod.fst
  := by
  induction entries with
  | nil => rfl
  | cons e entries ih => rw [entryTexts_cons, List.map_cons, ih, List.map_cons]

omit [DataEncoding] in
/-- Fields collected in the order of their keys have the texts of the fields in that order. -/
theorem compactFields_collectEntries {number : Number → Bytes} {fields : List (Bytes × Json Number)}
    (hnodup : (fields.map Prod.fst).Nodup) :
  (Json.compactFields number fields.collectEntries).insertionSort (fun a b => a.1 ≤ b.1)
    = (Json.compactFields number fields).insertionSort fun a b => a.1 ≤ b.1
  := by
  let sorted := fields.insertionSort fun a b => a.1 ≤ b.1
  have htotal : Std.Total fun a b : Bytes × Json Number => a.1 ≤ b.1 := ⟨fun a b => le_total a.1 b.1⟩
  have htrans : IsTrans (Bytes × Json Number) fun a b => a.1 ≤ b.1 := ⟨fun a b c => le_trans⟩
  have hperm : sorted.Perm fields := List.perm_insertionSort _ fields
  have horder : sorted.Pairwise fun a b => a.1 ≤ b.1 := List.pairwise_insertionSort _ fields
  have hcollect : fields.collectEntries = sorted := by
    apply List.collectEntries_of_perm hperm.symm
    have hdistinct := List.pairwise_map.mp ((hperm.map Prod.fst).nodup_iff.mpr hnodup)
    apply List.pairwise_map.mpr
    apply (horder.and hdistinct).imp
    rintro a b ⟨hle, hne⟩
    exact lt_of_le_of_ne hle hne
  rw [hcollect, Json.compactFields_eq, Json.compactFields_eq]
  trans sorted.map fun f => (f.1, jsonString f.1 ++ char ':' :: Json.compact number f.2)
  · apply List.Pairwise.insertionSort_eq
    exact List.pairwise_map.mpr horder
  · apply List.map_insertionSort
    exact fun _ _ _ _ => Iff.rfl

mutual

/-- A value converts to JSON with its text, unless there is a float in it. -/
theorem valueToJson_eq (h : InAlphabets) (floatText : ℕ → Bytes) :
  ∀ {v : Value}, v.Encodable →
    (valueToJson v).map (Json.compact (Number.text floatText)) = unlessFloat v.jsonText v.firstFloat
  | .unsigned n, hv => by
      have hn : n ≤ 2 ^ 63 - 1 := hv
      rw [valueToJson, dif_pos (by omega)]
      rfl
  | .signed i, hv => by
      have hi : -(2 ^ 63) ≤ i ∧ i < 2 ^ 63 := hv
      rw [valueToJson, dif_pos hi, Value.jsonText, ← Number.text_ofInt floatText hi]
      rfl
  | .float bits, _ => rfl
  | .bool b, _ => rfl
  | .null, _ => rfl
  | .text s, _ => rfl
  | .bytes b, _ => congrArg Except.ok (compact_bytes h floatText b)
  | .cid c, _ => congrArg Except.ok (compact_cid h floatText c)
  | .array items, hv => by
      rw [valueToJson, Value.firstFloat]
      obtain ⟨hfloat, json, hjson, htexts⟩ | ⟨bits, hfloat, hjson⟩ :=
        map_eq_unlessFloat.mp (itemsToJson_eq h floatText hv.2)
      · rw [hjson, hfloat, Value.jsonText, ← htexts]
        rfl
      · rw [hjson, hfloat]
        rfl
  | .map entries, hv => by
      rw [valueToJson, Value.firstFloat]
      obtain ⟨hfloat, json, hjson, htexts⟩ | ⟨bits, hfloat, hjson⟩ :=
        map_eq_unlessFloat.mp (entriesToJson_eq h floatText hv.2.2)
      · have hkeys : json.map Prod.fst = entries.map Prod.fst := by
          rw [← keys_entryTexts, ← htexts, Json.compactFields_eq, List.map_map]
          rfl
        rw [hjson, hfloat, Value.jsonText, ← htexts,
          ← compactFields_collectEntries (hkeys ▸ hv.2.1)]
        rfl
      · rw [hjson, hfloat]
        rfl

theorem itemsToJson_eq (h : InAlphabets) (floatText : ℕ → Bytes) :
  ∀ {items : List Value}, EncodableItems items →
    (itemsToJson items).map (Json.compactItems (Number.text floatText))
      = unlessFloat (itemTexts items) (firstFloatItems items)
  | [], _ => rfl
  | v :: vs, hitems => by
      rw [itemsToJson, firstFloatItems]
      obtain ⟨hfloat, json, hjson, htext⟩ | ⟨bits, hfloat, hjson⟩ :=
        map_eq_unlessFloat.mp (valueToJson_eq h floatText hitems.1)
      · obtain ⟨hfloats, json', hjson', htexts⟩ | ⟨bits, hfloats, hjson'⟩ :=
          map_eq_unlessFloat.mp (itemsToJson_eq h floatText hitems.2)
        · rw [hjson, hjson', hfloat, hfloats, itemTexts, ← htext, ← htexts]
          rfl
        · rw [hjson, hjson', hfloat, hfloats]
          rfl
      · rw [hjson, hfloat]
        rfl

theorem entriesToJson_eq (h : InAlphabets) (floatText : ℕ → Bytes) :
  ∀ {entries : List (Bytes × Value)}, EncodableEntries entries →
    (entriesToJson entries).map (Json.compactFields (Number.text floatText))
      = unlessFloat (entryTexts entries) (firstFloatEntries entries)
  | [], _ => rfl
  | (key, v) :: entries, hentries => by
      rw [entriesToJson, firstFloatEntries]
      obtain ⟨hfloat, json, hjson, htext⟩ | ⟨bits, hfloat, hjson⟩ :=
        map_eq_unlessFloat.mp (valueToJson_eq h floatText hentries.2.1)
      · obtain ⟨hfloats, json', hjson', htexts⟩ | ⟨bits, hfloats, hjson'⟩ :=
          map_eq_unlessFloat.mp (entriesToJson_eq h floatText hentries.2.2)
        · rw [hjson, hjson', hfloat, hfloats, entryTexts, ← htext, ← htexts]
          rfl
        · rw [hjson, hjson', hfloat, hfloats]
          rfl
      · rw [hjson, hfloat]
        rfl

end

/-! ### One pass -/

/-- What the writer does with a document: it appends the text of the value, and fails if the value
has a float. What was there before stays there. -/
theorem writeDocument_eq (bytes out : Bytes) :
  (∀ v, Cbor.decode bytes = .ok v →
    writeDocument bytes out = (unlessFloat () v.firstFloat, out ++ v.jsonText))
    ∧ ∀ e, Cbor.decode bytes = .error e →
      ∃ e' out', writeDocument bytes out = (.error e', out') ∧ out <+: out'
  := by
  have hinside : (Decoder.new bytes).Inside := Nat.zero_le _
  have hempty : ∀ rest : Bytes, rest <:+ bytes →
      (((Decoder.new bytes).leaving rest 0).isEmpty = true ↔ rest = []) := by
    intro rest hsuffix
    have hle := hsuffix.length_le
    show decide (bytes.length ≤ bytes.length - rest.length) = true ↔ _
    rw [decide_eq_true_iff, ← List.length_eq_zero_iff]
    omega
  have hwrites := writeJson_writes ⟨out, none⟩
  cases hvalue : decodeValue maxDepth bytes with
  | error e =>
      obtain ⟨e', w', d', heq, hpre⟩ := hwrites.error hinside rfl hvalue
      have hdecode : Cbor.decode bytes = .error e := by
        rw [Cbor.decode, hvalue]
        rfl
      rw [hdecode]
      refine ⟨fun _ h => (by cases h), fun _ _ => ⟨.cbor e', w'.out, ?_, hpre⟩⟩
      rw [writeDocument, heq]
  | ok p =>
      obtain ⟨v, rest⟩ := p
      obtain ⟨hsuffix, heq⟩ := hwrites.ok hinside rfl hvalue
      have hend := hempty rest hsuffix
      by_cases hrest : rest = []
      · have hdecode : Cbor.decode bytes = .ok v := by
          rw [Cbor.decode, hvalue, hrest]
          rfl
        rw [hdecode]
        refine ⟨?_, fun _ h => (by cases h)⟩
        rintro _ ⟨⟩
        rw [writeDocument, heq]
        dsimp only
        rw [hend.mpr hrest, JsonWriter.write, Option.none_or]
        cases v.firstFloat <;> rfl
      · have hdecode : Cbor.decode bytes = .error .trailingData := by
          rw [Cbor.decode, hvalue]
          exact if_pos hrest
        rw [hdecode]
        refine ⟨fun _ h => (by cases h), fun _ _ =>
          ⟨.cbor .trailingData, out ++ v.jsonText, ?_, List.prefix_append _ _⟩⟩
        rw [writeDocument, heq]
        dsimp only
        rw [Bool.eq_false_iff.mpr fun hdone => hrest (hend.mp hdone)]
        rfl

/-- To convert DRISL to JSON in one pass is to convert it by way of a tree and write the JSON: it
succeeds when that does, with the compact text, and otherwise nothing is written. -/
theorem drislToJsonInto_eq (h : InAlphabets) (floatText : ℕ → Bytes) (bytes out : Bytes) :
  (∀ json, drislToJson bytes = .ok json →
    drislToJsonInto bytes out = (.ok (), out ++ json.compact (Number.text floatText)))
    ∧ ∀ e, drislToJson bytes = .error e → ∃ e', drislToJsonInto bytes out = (.error e', out)
  := by
  obtain ⟨hok, herror⟩ := writeDocument_eq bytes out
  have htruncate : ∀ {e out'}, writeDocument bytes out = (.error e, out') → out <+: out' →
      drislToJsonInto bytes out = (.error e, out) := by
    intro e out' heq hpre
    rw [drislToJsonInto, heq]
    dsimp only
    rw [← List.prefix_iff_eq_take.mp hpre]
  rw [drislToJson]
  cases hdecode : Cbor.decode bytes with
  | error e =>
      obtain ⟨e', out', heq, hpre⟩ := herror e hdecode
      exact ⟨fun _ h => (by cases h), fun _ _ => ⟨e', htruncate heq hpre⟩⟩
  | ok v =>
      have hwritten := hok v hdecode
      obtain ⟨hfloat, json, hjson, htext⟩ | ⟨bits, hfloat, hjson⟩ :=
        map_eq_unlessFloat.mp (valueToJson_eq h floatText (encodable_of_decode hdecode))
      · dsimp only
        rw [hjson]
        refine ⟨?_, fun e heq => by cases heq⟩
        rintro _ ⟨⟩
        rw [drislToJsonInto, hwritten, hfloat, htext]
        rfl
      · dsimp only
        rw [hjson]
        rw [hfloat] at hwritten
        exact ⟨fun _ h => (by cases h), fun _ _ =>
          ⟨_, htruncate hwritten (List.prefix_append _ _)⟩⟩

end

/-! ### Example -/

theorem inAlphabets_standard :
  @InAlphabets DataEncoding.standard
  := @InAlphabets.mk DataEncoding.standard (fun _ => mem_encodeBits (by decide))
    (fun _ => mem_encodeBits (by decide))

namespace Sample

attribute [local instance] DataEncoding.standard

/-- A map whose keys are in another order in JSON. -/
def tally : Bytes := [0xa2, 0x61, 0x62, 0x01, 0x62, 0x61, 0x61, 0x41, 0x00]

theorem tally_drislToJsonInto :
  ∃ json, drislToJson tally = .ok json
    ∧ drislToJsonInto tally [0x20] = (.ok (), [0x20] ++ json.compact (Number.text fun _ => []))
  := by
  have hok : (drislToJson tally).isOk = true := by decide
  cases h : drislToJson tally with
  | error e =>
      rw [h] at hok
      cases hok
  | ok json =>
      exact ⟨json, rfl, (drislToJsonInto_eq inAlphabets_standard (fun _ => []) tally [0x20]).1 json h⟩

example : drislToJsonInto tally [] = (.ok (), ascii "\x7b\"aa\":\x7b\"$bytes\":\"AA\"\x7d,\"b\":1\x7d") := by
  decide

end Sample

end Shrike.Cbor
