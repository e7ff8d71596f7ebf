import Shrike.Xrpc.Query

/-!
# Parameters survive the wire

What a client writes of well-typed parameters, the server reads back. For every query, reading it
through the lexicon and reading it as a struct come to the same.
-/

namespace Shrike.Xrpc

open Cbor Lexicon Bytes

/-! ### Types -/

/-- The type of a single value of a field. -/
def scalarType : FieldSchema → Option ScalarType
  | .string _ _ => some .string
  | .integer _ _ => some .i64
  | .boolean _ _ => some .bool
  | _ => none

/-- The type that corresponds to a field of strings, integers, booleans or arrays of them. -/
def fieldType : FieldSchema → Option FieldType
  | .array items _ _ => (scalarType items).map .vec
  | field => (scalarType field).map .scalar

/-- A single value of a type. A string is a text, and not empty. -/
inductive IsScalar : ScalarType → Json Number → Prop where
  | string {s} (nonempty : s ≠ []) (wellFormed : utf8 s = true) : IsScalar .string (.string s)
  | i64 (n : I64) : IsScalar .i64 (.number n.number)
  | bool (b : Bool) : IsScalar .bool (.bool b)

/-- A value of a type. An array is not empty. -/
inductive IsValue : FieldType → Json Number → Prop where
  | scalar {type json} (h : IsScalar type json) :
      IsValue (.scalar type) json
  | vec {type items} (nonempty : items ≠ [])
      (h : ∀ item ∈ items, IsScalar type item) : IsValue (.vec type) (.array items)

/-! ### Integers -/

section

variable {floatText : ℕ → Bytes}

theorem toText_all (n : ℕ) :
  (toText 10 n).all isAsciiDigit = true
  := List.all_eq_true.mpr fun _ => isAsciiDigit_of_mem_toText

theorem stripPrefix_minus_toText (n : ℕ) :
  stripPrefix [char '-'] (toText 10 n) = none
  := by
  cases h : stripPrefix [char '-'] (toText 10 n) with
  | none => rfl
  | some rest =>
      have hmem : char '-' ∈ toText 10 n := by
        rw [stripPrefix_some h]
        exact List.mem_cons_self
      exact absurd (isAsciiDigit_of_mem_toText hmem) (by decide)

theorem readInt_toText {negative : Bool} {m : ℕ} {n : I64}
    (h : (if negative then -(m : ℤ) else m) = n.val) :
  readInt negative (toText 10 m) = some n
  := by
  obtain ⟨v, hv⟩ := n
  subst h
  rw [readInt, if_neg (by simp [toText_ne_nil, toText_all])]
  simp only [ofText_toText (show 1 < 10 ∧ 10 ≤ 16 by decide)]
  exact dif_pos hv

/-- An integer is read from its text. -/
theorem parseInt_text (n : I64) :
  parseInt (n.number.text floatText) = some n
  := by
  rw [I64.number, Number.ofInt]
  split_ifs with hsign
  · rw [Number.text, parseInt, stripPrefix_minus_toText]
    apply readInt_toText
    exact Int.toNat_of_nonneg hsign
  · have hstrip : stripPrefix [char '-'] (char '-' :: toText 10 n.val.natAbs)
        = some (toText 10 n.val.natAbs) := stripPrefix_append [char '-'] _
    rw [Number.text, parseInt, hstrip]
    apply readInt_toText
    rw [if_pos rfl]
    omega

theorem text_ascii (n : I64) :
  IsAscii (n.number.text floatText)
  := by
  have hdigits : ∀ m : ℕ, IsAscii (toText 10 m) := by
    intro m b hb
    have hdigit := isAsciiDigit_of_mem_toText hb
    apply lt_of_isAsciiAlphanumeric
    rw [isAsciiAlphanumeric, hdigit, Bool.or_true]
  rw [I64.number, Number.ofInt]
  split_ifs
  · exact hdigits _
  · exact isAscii_cons.mpr ⟨by decide, hdigits _⟩

theorem text_ne_nil (n : I64) :
  n.number.text floatText ≠ []
  := by
  rw [I64.number, Number.ofInt]
  split_ifs
  · exact toText_ne_nil _
  · exact List.cons_ne_nil _ _

/-! ### What the client writes -/

/-- A text that stands for a single value in a query. -/
structure Spells (text : Bytes) (type : ScalarType) (json : Json Number) : Prop where
  nonempty : text ≠ []
  wellFormed : utf8 text = true
  decoded : ∀ key field, scalarType field = some type → decodeScalar key field text = .ok json

theorem spells_string {s : Bytes} (hne : s ≠ []) (hs : utf8 s = true) :
  Spells s .string (.string s)
  where
  nonempty := hne
  wellFormed := hs
  decoded key field hfield := by
    cases field with
    | string => rfl
    | integer | boolean | bytes | cidLink | blob | array | object | ref | union | unknown =>
        cases hfield

theorem spells_i64 (n : I64) :
  Spells (n.number.text floatText) .i64 (.number n.number)
  where
  nonempty := text_ne_nil n
  wellFormed := (text_ascii n).utf8
  decoded key field hfield := by
    cases field with
    | integer =>
        rw [decodeScalar, parseInt_text]
    | string | boolean | bytes | cidLink | blob | array | object | ref | union | unknown =>
        cases hfield

theorem spells_bool (b : Bool) :
  Spells (ascii (if b then "true" else "false")) .bool (.bool b)
  where
  nonempty := by cases b <;> decide
  wellFormed := by cases b <;> decide
  decoded key field hfield := by
    cases field with
    | boolean => cases b <;> rfl
    | string | integer | bytes | cidLink | blob | array | object | ref | union | unknown =>
        cases hfield

variable {type : ScalarType}

/-- A single value is written as a text that stands for it. -/
theorem scalarText_eq {json : Json Number} (h : IsScalar type json) (key : Bytes) :
  ∃ text, scalarText floatText key json = .ok (some text) ∧ Spells text type json
  := by
  cases h with
  | string hne hs => exact ⟨_, rfl, spells_string hne hs⟩
  | i64 n => exact ⟨_, rfl, spells_i64 n⟩
  | bool b => exact ⟨_, rfl, spells_bool b⟩

/-- The pairs of a key with its values. -/
def pairsOf (entry : Bytes × List Bytes) : List (Bytes × Bytes) :=
  entry.2.map fun value => (entry.1, value)

/-- What stands for a member of the parameters in a query: its key with the values that it is
decoded from. -/
structure Stands (entry : Bytes × List Bytes) (type : FieldType) (member : Bytes × Json Number) :
    Prop where
  key : entry.1 = member.1
  nonempty : entry.2 ≠ []
  values : ∀ value ∈ entry.2, value ≠ [] ∧ utf8 value = true
  decoded : ∀ field, fieldType field = some type →
    decodeEntry (some field) entry.1 entry.2 = .ok member.2

/-- The type of an array of a field's items. -/
theorem fieldType_eq_vec {field : FieldSchema} (h : fieldType field = some (.vec type)) :
  ∃ items minLength maxLength, field = .array items minLength maxLength
    ∧ scalarType items = some type
  := by
  cases field with
  | array items minLength maxLength =>
      obtain ⟨type', htype, heq⟩ := Option.map_eq_some_iff.mp h
      cases heq
      exact ⟨items, minLength, maxLength, rfl, htype⟩
  | string | integer | boolean | bytes | cidLink | blob | object | ref | union | unknown => cases h

theorem fieldType_eq_scalar {field : FieldSchema} (h : fieldType field = some (.scalar type)) :
  scalarType field = some type
    ∧ (∀ key single, decodeEntry (some field) key [single] = decodeScalar key field single)
    ∧ ∀ key values, values.length ≠ 1 →
      decodeEntry (some field) key values = .error (key ++ ascii " must be a single value")
  := by
  have hmany : ∀ values : List Bytes, values.length ≠ 1 →
      values = [] ∨ ∃ a b rest, values = a :: b :: rest := by
    intro values hlength
    rcases values with _ | ⟨a, _ | ⟨b, rest⟩⟩
    · exact .inl rfl
    · exact absurd rfl hlength
    · exact .inr ⟨a, b, rest, rfl⟩
  cases field with
  | array items minLength maxLength =>
      obtain ⟨type', -, heq⟩ := Option.map_eq_some_iff.mp h
      cases heq
  | string | integer | boolean =>
      cases h
      refine ⟨rfl, fun _ _ => rfl, ?_⟩
      intro key values hlength
      rcases hmany values hlength with rfl | ⟨a, b, rest, rfl⟩ <;> rfl
  | bytes | cidLink | blob | object | ref | union | unknown => cases h

variable {items : List (Json Number)}

/-- The items of an array are written as texts that stand for them. -/
theorem scalarTexts (h : ∀ item ∈ items, IsScalar type item) (key : Bytes) :
  ∃ texts, items.mapM (scalarText floatText key) = .ok (texts.map some)
    ∧ List.Forall₂ (Spells · type) texts items
  := by
  induction items with
  | nil => exact ⟨[], rfl, .nil⟩
  | cons item items ih =>
      obtain ⟨text, htext, hspells⟩ :=
        @scalarText_eq floatText _ _ (h item List.mem_cons_self) key
      obtain ⟨texts, htexts, hall⟩ := ih fun item hitem => h item (List.mem_cons_of_mem _ hitem)
      refine ⟨text :: texts, ?_, .cons hspells hall⟩
      rw [List.mapM_cons, htext, htexts]
      rfl

variable {texts : List Bytes}

theorem values_of_spells (h : List.Forall₂ (Spells · type) texts items) :
  ∀ text ∈ texts, text ≠ [] ∧ utf8 text = true
  := by
  induction h with
  | nil => nofun
  | cons hspells _ ih =>
      intro text htext
      rcases List.mem_cons.mp htext with rfl | htext
      · exact ⟨hspells.nonempty, hspells.wellFormed⟩
      · exact ih text htext

theorem decodeItems (h : List.Forall₂ (Spells · type) texts items) {field : FieldSchema}
    (hfield : scalarType field = some type) (key : Bytes) :
  texts.mapM (decodeScalar key field) = .ok items
  := by
  induction h with
  | nil => rfl
  | cons hspells _ ih =>
      rw [List.mapM_cons, hspells.decoded key field hfield, ih]
      rfl

/-- A member is written as values that stand for it. -/
theorem valuePairs_eq {type : FieldType} {member : Bytes × Json Number}
    (h : IsValue type member.2) :
  ∃ entry, valuePairs floatText member.1 member.2 = .ok (pairsOf entry) ∧ Stands entry type member
  := by
  obtain ⟨key, json⟩ := member
  cases h with
  | scalar hscalar =>
      obtain ⟨text, htext, hspells⟩ := @scalarText_eq floatText _ _ hscalar key
      refine ⟨(key, [text]), ?_, rfl, List.cons_ne_nil _ _, ?_, ?_⟩
      · have hpairs : valuePairs floatText key json = (do
            let text ← scalarText floatText key json
            .ok (text.toList.map fun text => (key, text))) := by
          cases hscalar <;> rfl
        rw [hpairs, htext]
        rfl
      · intro value hvalue
        rw [List.mem_singleton.mp hvalue]
        exact ⟨hspells.nonempty, hspells.wellFormed⟩
      · intro field hfield
        obtain ⟨htype, hsingle, -⟩ := fieldType_eq_scalar hfield
        rw [hsingle]
        exact hspells.decoded key field htype
  | vec hne hitems =>
      obtain ⟨texts, htexts, hall⟩ := @scalarTexts floatText _ _ hitems key
      refine ⟨(key, texts), ?_, rfl, ?_, ?_, ?_⟩
      · rw [valuePairs, htexts]
        show Except.ok (((texts.map some).filterMap id).map _) = _
        rw [List.filterMap_map, Function.id_comp, List.filterMap_some]
        rfl
      · rintro rfl
        cases hall
        exact hne rfl
      · exact values_of_spells hall
      · intro field hfield
        obtain ⟨items, minLength, maxLength, rfl, htype⟩ := fieldType_eq_vec hfield
        show (texts.mapM (decodeScalar key items)).map Json.array = _
        rw [decodeItems hall htype]
        rfl

/-- What a key and its values in a query have to do with a member of the parameters. -/
structure Carries (declared : ParamsDef) (entry : Bytes × List Bytes)
    (member : Bytes × Json Number) : Prop where
  key : entry.1 = member.1
  nonempty : entry.2 ≠ []
  values : ∀ value ∈ entry.2, value ≠ [] ∧ utf8 value = true
  decoded : decodeEntry (declared.properties.lookup entry.1) entry.1 entry.2 = .ok member.2

/-- A declared parameter with a value of its type. -/
def Declared (declared : ParamsDef) (member : Bytes × Json Number) : Prop :=
  ∃ field type, declared.properties.lookup member.1 = some field ∧ fieldType field = some type
    ∧ IsValue type member.2

/-- Parameters are written as the pairs of keys that carry them. -/
theorem queryPairs_eq {declared : ParamsDef} {map : List (Bytes × Json Number)}
    (h : ∀ member ∈ map, Declared declared member) :
  ∃ entries, queryPairs floatText (.object map) = .ok (entries.flatMap pairsOf)
    ∧ List.Forall₂ (Carries declared) entries map
  := by
  induction map with
  | nil => exact ⟨[], rfl, .nil⟩
  | cons member map ih =>
      obtain ⟨entries, hpairs, hcarries⟩ := ih fun m hm => h m (List.mem_cons_of_mem _ hm)
      obtain ⟨field, type, hlookup, htype, hvalue⟩ := h member List.mem_cons_self
      obtain ⟨entry, hentry, hstands⟩ := @valuePairs_eq floatText _ _ hvalue
      refine ⟨entry :: entries, ?_, .cons ?_ hcarries⟩
      · obtain ⟨pairs, hmap, hflat⟩ := Except.bind_eq_ok.mp hpairs
        have hall : (member :: map).mapM (fun member => valuePairs floatText member.1 member.2)
            = .ok (pairsOf entry :: pairs) := by
          rw [List.mapM_cons, hentry, hmap]
          rfl
        rw [queryPairs, hall, List.flatMap_cons, ← Except.ok.inj hflat]
        rfl
      · constructor
        · exact hstands.key
        · exact hstands.nonempty
        · exact hstands.values
        · rw [hstands.key, hlookup, ← hstands.key]
          exact hstands.decoded field htype

end

/-! ### What the server reads -/

/-- A name with an index in brackets at its end. -/
def Bracketed (name : Bytes) : Prop :=
  ∃ base index, name = base ++ char '[' :: index ++ [char ']'] ∧ index.all isAsciiDigit = true

variable {e bs key name rest suffix : Bytes}

theorem stripSuffix_eq (h : stripSuffix suffix bs = some rest) :
  bs = rest ++ suffix
  := by
  rw [stripSuffix] at h
  split_ifs at h with hsuffix
  cases h
  obtain ⟨front, rfl⟩ := List.isSuffixOf_iff_suffix.mp hsuffix
  rw [List.length_append, Nat.add_sub_cancel, List.take_left]

/-- Only names with an index in brackets are folded. -/
theorem stripBrackets_eq_none (h : ¬Bracketed name) :
  stripBrackets name = none
  := by
  rw [Option.eq_none_iff_forall_ne_some]
  intro base hbase
  obtain ⟨inner, hinner, hbase⟩ := Option.bind_eq_some_iff.mp hbase
  obtain ⟨⟨front, index⟩, hsplit, hbase⟩ := Option.bind_eq_some_iff.mp hbase
  dsimp only at hbase
  split_ifs at hbase with hfolds
  have hparts := splitOnce_some hsplit
  exact h ⟨front, index, hparts ▸ stripSuffix_eq hinner, hfolds.2⟩

variable {done entries : List (Bytes × List Bytes)} {declared : ParamsDef}
  {map json members : List (Bytes × Json Number)}

theorem push_of_not_mem (value : Bytes) (h : key ∉ entries.map Prod.fst) :
  push key value entries = entries ++ [(key, [value])]
  := by
  induction entries with
  | nil => rfl
  | cons entry entries ih =>
      obtain ⟨hne, hrest⟩ := List.ne_and_not_mem_of_not_mem_cons h
      rw [push, if_neg hne.symm, ih hrest]
      rfl

theorem push_last (value : Bytes) (values : List Bytes) (h : key ∉ entries.map Prod.fst) :
  push key value (entries ++ [(key, values)]) = entries ++ [(key, values ++ [value])]
  := by
  induction entries with
  | nil => exact if_pos rfl
  | cons entry entries ih =>
      obtain ⟨hne, hrest⟩ := List.ne_and_not_mem_of_not_mem_cons h
      rw [List.cons_append, push, if_neg hne.symm, ih hrest]
      rfl

/-- Add the pairs of a query one after the other. -/
def pushAll (entries : List (Bytes × List Bytes)) (pairs : List (Bytes × Bytes)) :
    List (Bytes × List Bytes) :=
  pairs.foldl (fun entries pair => push pair.1 pair.2 entries) entries

theorem pushAll_last (values more : List Bytes) (h : key ∉ entries.map Prod.fst) :
  pushAll (entries ++ [(key, values)]) (pairsOf (key, more))
    = entries ++ [(key, values ++ more)]
  := by
  induction more generalizing values with
  | nil => rw [List.append_nil]; rfl
  | cons value more ih =>
      show pushAll (push key value (entries ++ [(key, values)])) (pairsOf (key, more)) = _
      rw [push_last value values h, ih, List.append_assoc]
      rfl

variable {entry : Bytes × List Bytes}

/-- The values of a new key are grouped under it. -/
theorem pushAll_pairsOf (hne : entry.2 ≠ []) (h : entry.1 ∉ entries.map Prod.fst) :
  pushAll entries (pairsOf entry) = entries ++ [entry]
  := by
  obtain ⟨key, values⟩ := entry
  obtain ⟨value, values, rfl⟩ := List.exists_cons_of_ne_nil hne
  show pushAll (push key value entries) (pairsOf (key, values)) = _
  rw [push_of_not_mem value h, pushAll_last [value] values h]
  rfl

/-- Pairs are grouped into the entries that they are made from. -/
theorem pushAll_flatMap
    (hne : ∀ entry ∈ entries, entry.2 ≠ []) (h : ((done ++ entries).map Prod.fst).Nodup) :
  pushAll done (entries.flatMap pairsOf) = done ++ entries
  := by
  induction entries generalizing done with
  | nil => rw [List.append_nil]; rfl
  | cons entry entries ih =>
      have hnot : entry.1 ∉ done.map Prod.fst := by
        rw [List.map_append, List.map_cons] at h
        intro hmem
        exact (List.disjoint_of_nodup_append h) hmem List.mem_cons_self
      have hrest : done ++ entry :: entries = done ++ [entry] ++ entries := by
        rw [List.append_assoc]
        rfl
      have hsplit : pushAll done ((entry :: entries).flatMap pairsOf)
          = pushAll (pushAll done (pairsOf entry)) (entries.flatMap pairsOf) := by
        rw [List.flatMap_cons, pushAll, List.foldl_append]
        rfl
      rw [hsplit, pushAll_pairsOf (hne entry List.mem_cons_self) hnot]
      rw [hrest] at h ⊢
      exact ih (fun e he => hne e (List.mem_cons_of_mem _ he)) h

/-- Pairs without empty values and without brackets are grouped by their keys. -/
theorem foldl_add {pairs : List (Bytes × Bytes)}
    (h : ∀ pair ∈ pairs, pair.2 ≠ [] ∧ ¬Bracketed pair.1) (grouped : Grouped) :
  pairs.foldl Grouped.add grouped = { grouped with plain := pushAll grouped.plain pairs }
  := by
  induction pairs generalizing grouped with
  | nil => rfl
  | cons pair pairs ih =>
      obtain ⟨hne, hname⟩ := h pair List.mem_cons_self
      have hadd : grouped.add pair
          = { grouped with plain := push pair.1 pair.2 grouped.plain } := by
        rw [Grouped.add, if_neg hne, stripBrackets_eq_none hname]
      rw [List.foldl_cons, hadd, ih fun p hp => h p (List.mem_cons_of_mem _ hp)]
      rfl

/-- The form of some entries is read as the entries. -/
theorem fromQuery_formSerialize (hkeys : (entries.map Prod.fst).Nodup)
    (h : ∀ entry ∈ entries, entry.2 ≠ [] ∧ utf8 entry.1 = true ∧ ¬Bracketed entry.1
      ∧ ∀ value ∈ entry.2, value ≠ [] ∧ utf8 value = true) :
  Params.fromQuery (formSerialize (entries.flatMap pairsOf)) = { entries }
  := by
  have hpairs : ∀ pair ∈ entries.flatMap pairsOf, utf8 pair.1 = true ∧ utf8 pair.2 = true
      ∧ pair.2 ≠ [] ∧ ¬Bracketed pair.1 := by
    intro pair hpair
    obtain ⟨entry, hentry, hpair⟩ := List.mem_flatMap.mp hpair
    obtain ⟨value, hvalue, rfl⟩ := List.mem_map.mp hpair
    obtain ⟨-, hkey, hbrackets, hvalues⟩ := h entry hentry
    exact ⟨hkey, (hvalues value hvalue).2, (hvalues value hvalue).1, hbrackets⟩
  rw [Params.fromQuery,
    formParse_formSerialize fun pair hpair => ⟨(hpairs pair hpair).1, (hpairs pair hpair).2.1⟩]
  rw [foldl_add fun pair hpair => (hpairs pair hpair).2.2]
  show { entries := pushAll [] (entries.flatMap pairsOf) : Params } = _
  rw [pushAll_flatMap (fun entry hentry => (h entry hentry).1) (by simpa using hkeys)]
  rfl

/-- The entries that carry some parameters are decoded to them. -/
theorem decode_of_carries (h : List.Forall₂ (Carries declared) entries map)
    (hsorted : (map.map Prod.fst).Pairwise (· < ·)) :
  ({ entries } : Params).decode (some declared) = .ok map
  := by
  have hmembers : (entries.mapM fun entry =>
      (decodeEntry (declared.properties.lookup entry.1) entry.1 entry.2).map
        fun value => (entry.1, value)) = .ok map := by
    clear hsorted
    induction h with
    | nil => rfl
    | cons hcarries _ ih =>
        rw [List.mapM_cons, hcarries.decoded, ih, hcarries.key]
        rfl
  apply Except.bind_eq_ok.mpr
  refine ⟨map, hmembers, ?_⟩
  rw [List.collectEntries_of_perm (.refl map) hsorted]

theorem keys_of_carries (h : List.Forall₂ (Carries declared) entries map) :
  entries.map Prod.fst = map.map Prod.fst
  := by
  induction h with
  | nil => rfl
  | cons hcarries _ ih => rw [List.map_cons, List.map_cons, hcarries.key, ih]

theorem exists_of_carries (h : List.Forall₂ (Carries declared) entries map)
    (hentry : entry ∈ entries) :
  ∃ member ∈ map, Carries declared entry member
  := by
  induction h with
  | nil => cases hentry
  | cons hcarries _ ih =>
      rcases List.mem_cons.mp hentry with rfl | hentry
      · exact ⟨_, List.mem_cons_self, hcarries⟩
      · obtain ⟨member, hmember, hentry⟩ := ih hentry
        exact ⟨member, List.mem_cons_of_mem _ hmember, hentry⟩

/-! ### The two ways of reading -/

variable {field schema : FieldSchema}

/-- A single value is the same through the lexicon and by its type. -/
theorem decodeScalar_agrees {type : ScalarType}
    (h : scalarType field = some type) (key raw : Bytes) :
  ((decodeScalar key field raw).toOption.bind fun json => (fromScalarJson json type).toOption)
    = (deserializeStr raw type).toOption
  := by
  cases field with
  | string =>
      cases h
      rfl
  | integer =>
      cases h
      rw [decodeScalar, deserializeStr]
      cases parseInt raw with
      | none => rfl
      | some n =>
          show (fromScalarJson (.number n.number) .i64).toOption = _
          rw [fromScalarJson, asI64_number]
          rfl
  | boolean =>
      cases h
      rw [decodeScalar, deserializeStr]
      cases parseBool raw <;> rfl
  | bytes | cidLink | blob | array | object | ref | union | unknown => cases h

/-- The values of a key are the same through the lexicon and by their type. -/
theorem decodeEntry_agrees {type : FieldType} (h : fieldType field = some type)
    (key : Bytes) (values : List Bytes) :
  ((decodeEntry (some field) key values).toOption.bind fun json => (fromJson json type).toOption)
    = (deserializeValues values type).toOption
  := by
  cases type with
  | scalar type =>
      obtain ⟨htype, hsingle, hmany⟩ := fieldType_eq_scalar h
      rcases values with _ | ⟨raw, _ | ⟨raw', rest⟩⟩
      · rw [hmany _ _ (by simp)]
        rfl
      · rw [hsingle, deserializeValues, Except.toOption_map, ← decodeScalar_agrees htype key raw]
        cases decodeScalar key field raw with
        | error e => rfl
        | ok json =>
            show (fromJson json (.scalar type)).toOption
              = ((fromScalarJson json type).toOption).map .scalar
            rw [← Except.toOption_map]
            cases json <;> rfl
      · rw [hmany _ _ (by simp)]
        rfl
  | vec type =>
      obtain ⟨items, minLength, maxLength, rfl, htype⟩ := fieldType_eq_vec h
      have hitems := Except.toOption_mapM_comp (l := values) (decodeScalar_agrees htype key)
      rw [decodeEntry, deserializeValues, Except.toOption_map, Except.toOption_map, ← hitems]
      cases values.mapM (decodeScalar key items) with
      | error e => rfl
      | ok jsons => exact Except.toOption_map _ _

theorem decodeScalar_ne_null (key : Bytes) (field : FieldSchema) (raw : Bytes) :
  decodeScalar key field raw ≠ .ok .null
  := by
  cases field with
  | integer =>
      rw [decodeScalar]
      cases parseInt raw <;> nofun
  | boolean =>
      rw [decodeScalar]
      cases parseBool raw <;> nofun
  | string | bytes | cidLink | blob | array | object | ref | union | unknown => nofun

/-- Nothing is decoded to null. -/
theorem decodeEntry_ne_null {type : FieldType}
    (h : fieldType field = some type) (key : Bytes) (values : List Bytes) :
  decodeEntry (some field) key values ≠ .ok .null
  := by
  cases type with
  | scalar type =>
      obtain ⟨-, hsingle, hmany⟩ := fieldType_eq_scalar h
      rcases values with _ | ⟨raw, _ | ⟨raw', rest⟩⟩
      · rw [hmany _ _ (by simp)]
        nofun
      · rw [hsingle]
        exact decodeScalar_ne_null key field raw
      · rw [hmany _ _ (by simp)]
        nofun
  | vec type =>
      obtain ⟨items, minLength, maxLength, rfl, -⟩ := fieldType_eq_vec h
      rw [decodeEntry]
      cases values.mapM (decodeScalar key items) <;> nofun

/-- A field is the same through the lexicon and by its type. -/
theorem field_agrees {field : StructField}
    (h : fieldType schema = some field.type) (key : Bytes) (values : List Bytes) :
  ((decodeEntry (some schema) key values).toOption.bind fun json =>
      (fieldFromJson json field).toOption)
    = (fieldFromValues values field).toOption
  := by
  rw [fieldFromValues, Except.toOption_map, ← decodeEntry_agrees h key values]
  have hnull := decodeEntry_ne_null h key values
  cases hdecode : decodeEntry (some schema) key values with
  | error e => rfl
  | ok json =>
      rw [hdecode] at hnull
      show (fieldFromJson json field).toOption = ((fromJson json field.type).toOption).map some
      rw [← Except.toOption_map]
      cases json with
      | null => exact absurd rfl hnull
      | bool | number | string | array | object => rfl

/-- The keys of a query after one more pair. -/
theorem nodup_push (key value : Bytes) (h : (entries.map Prod.fst).Nodup) :
  ((push key value entries).map Prod.fst).Nodup
    ∧ ∀ k ∈ (push key value entries).map Prod.fst, k = key ∨ k ∈ entries.map Prod.fst
  := by
  induction entries with
  | nil => exact ⟨List.nodup_singleton key, fun k hk => .inl (List.mem_singleton.mp hk)⟩
  | cons entry entries ih =>
      obtain ⟨hnot, hrest⟩ := List.nodup_cons.mp h
      obtain ⟨hnodup, hkeys⟩ := ih hrest
      rw [push]
      split_ifs with heq
      · exact ⟨h, fun k hk => .inr hk⟩
      · constructor
        · apply List.nodup_cons.mpr
          refine ⟨fun hmem => ?_, hnodup⟩
          rcases hkeys _ hmem with hkey | hmem
          · exact heq hkey
          · exact hnot hmem
        · intro k hk
          rcases List.mem_cons.mp hk with rfl | hk
          · exact .inr List.mem_cons_self
          · exact (hkeys k hk).imp_right (List.mem_cons_of_mem _)

theorem nodup_pushAll (pairs : List (Bytes × Bytes)) (h : (entries.map Prod.fst).Nodup) :
  ((pushAll entries pairs).map Prod.fst).Nodup
  := by
  induction pairs generalizing entries with
  | nil => exact h
  | cons pair pairs ih => exact ih (nodup_push pair.1 pair.2 h).1

theorem nodup_foldl_add (pairs : List (Bytes × Bytes)) {grouped : Grouped}
    (h : (grouped.plain.map Prod.fst).Nodup) :
  ((pairs.foldl Grouped.add grouped).plain.map Prod.fst).Nodup
  := by
  induction pairs generalizing grouped with
  | nil => exact h
  | cons pair pairs ih =>
      apply ih
      rw [Grouped.add]
      split_ifs
      · exact h
      · cases stripBrackets pair.1 with
        | none => exact (nodup_push pair.1 pair.2 h).1
        | some base => exact h

/-- The keys of a query are distinct. -/
theorem nodup_fromQuery (query : Bytes) :
  ((Params.fromQuery query).entries.map Prod.fst).Nodup
  := nodup_pushAll _ (nodup_foldl_add _ List.nodup_nil)

/-- What the values of a key are decoded to is found under the key. -/
theorem lookup_decoded {f : Bytes → List Bytes → Except Bytes (Json Number)}
    (h : (entries.mapM fun entry => (f entry.1 entry.2).map fun value => (entry.1, value))
      = .ok members) (key : Bytes) :
  members.map Prod.fst = entries.map Prod.fst
    ∧ (entries.lookup key).map (f key) = (members.lookup key).map .ok
  := by
  induction entries generalizing members with
  | nil =>
      cases h
      exact ⟨rfl, rfl⟩
  | cons entry entries ih =>
      rw [List.mapM_cons] at h
      obtain ⟨member, hmember, h⟩ := Except.bind_eq_ok.mp h
      obtain ⟨rest, hrest, h⟩ := Except.bind_eq_ok.mp h
      cases h
      obtain ⟨json, hjson, rfl⟩ := Except.map_eq_ok.mp hmember
      obtain ⟨hkeys, hlookup⟩ := ih hrest
      constructor
      · rw [List.map_cons, hkeys]
        rfl
      · rw [List.lookup_cons, List.lookup_cons]
        cases hkey : key == entry.1 with
        | false => exact hlookup
        | true =>
            rw [beq_iff_eq.mp hkey]
            exact congrArg some hjson

/-- The fields of a struct are the declared parameters, with the types that correspond to them. -/
structure Mirrors (declared : ParamsDef) (fields : List StructField) : Prop where
  typed : ∀ field ∈ fields, ∃ schema, declared.properties.lookup field.name = some schema
    ∧ fieldType schema = some field.type
  complete : ∀ name schema, declared.properties.lookup name = some schema →
    ∃ field ∈ fields, field.name = name

/-- What the keys of a query are decoded to. -/
theorem lookup_decode {params : Params} (hnodup : (params.entries.map Prod.fst).Nodup)
    (h : params.decode (some declared) = .ok json) (key : Bytes) :
  (params.entries.lookup key).map (decodeEntry (declared.properties.lookup key) key)
    = (json.lookup key).map .ok
  := by
  obtain ⟨members, hmembers, hjson⟩ := Except.bind_eq_ok.mp h
  cases hjson
  obtain ⟨hkeys, hlookup⟩ := lookup_decoded
    (f := fun key values => decodeEntry (declared.properties.lookup key) key values) hmembers key
  rw [List.lookup_collectEntries, List.lookup_reverse (hkeys ▸ hnodup)]
  exact hlookup

/-- A query that is not decoded has a declared key whose values are not. -/
theorem exists_of_decode_error {params : Params} (h : params.decode (some declared) = .error e) :
  ∃ entry ∈ params.entries, ∃ schema, declared.properties.lookup entry.1 = some schema
    ∧ (decodeEntry (some schema) entry.1 entry.2).toOption = none
  := by
  have hmapM : (params.entries.mapM fun entry =>
      (decodeEntry (declared.properties.lookup entry.1) entry.1 entry.2).map
        fun value => (entry.1, value)) = .error e := by
    rw [Params.decode] at h
    cases hmembers : params.entries.mapM (fun entry =>
        (decodeEntry ((some declared).bind fun d => d.properties.lookup entry.1) entry.1 entry.2).map
          fun value => (entry.1, value)) with
    | error e' =>
        rw [hmembers] at h
        cases h
        exact hmembers
    | ok members =>
        rw [hmembers] at h
        cases h
  obtain ⟨entry, hentry, herror⟩ := Except.exists_of_mapM_eq_error hmapM
  rw [Except.map_eq_error] at herror
  refine ⟨entry, hentry, ?_⟩
  cases hschema : declared.properties.lookup entry.1 with
  | none =>
      rw [hschema] at herror
      rcases hvalues : entry.2 with _ | ⟨raw, _ | ⟨raw', rest⟩⟩
      all_goals
        rw [hvalues] at herror
        cases herror
  | some schema =>
      rw [hschema] at herror
      exact ⟨schema, rfl, by rw [herror]; rfl⟩

/-- A struct is the same through the lexicon and from the query itself. -/
theorem deserialize_agrees {fields : List StructField}
    (hfields : Mirrors declared fields) (query : Bytes) :
  ((Params.fromQuery query).decode (some declared)).toOption.bind (fun json =>
      ({ Params.fromQuery query with json := some json }.deserialize fields).toOption)
    = ((Params.fromQuery query).deserialize fields).toOption
  := by
  have hnodup := nodup_fromQuery query
  have hplain : (Params.fromQuery query).deserialize fields
      = deserializeFields fieldFromValues (Params.fromQuery query).entries fields := rfl
  rw [hplain]
  cases hdecode : (Params.fromQuery query).decode (some declared) with
  | error e =>
      obtain ⟨entry, hentry, schema, hschema, hnone⟩ := exists_of_decode_error hdecode
      obtain ⟨field, hfield, hname⟩ := hfields.complete entry.1 schema hschema
      obtain ⟨schema', hschema', htype⟩ := hfields.typed field hfield
      rw [hname, hschema] at hschema'
      cases hschema'
      have hlookup : (Params.fromQuery query).entries.lookup field.name = some entry.2 := by
        rw [hname]
        exact List.lookup_of_mem hnodup hentry
      have hagrees := field_agrees htype entry.1 entry.2
      rw [hnone] at hagrees
      apply (Except.toOption_mapM_eq_none hfield _).symm
      rw [hlookup]
      exact hagrees.symm
  | ok json =>
      apply Except.toOption_mapM_congr
      intro field hfield
      obtain ⟨schema, hschema, htype⟩ := hfields.typed field hfield
      have hlookup := lookup_decode hnodup hdecode field.name
      rw [hschema] at hlookup
      cases hvalues : (Params.fromQuery query).entries.lookup field.name with
      | none =>
          rw [hvalues] at hlookup
          rw [Option.map_eq_none_iff.mp hlookup.symm]
      | some values =>
          rw [hvalues] at hlookup
          obtain ⟨value, hvalue, hok⟩ := Option.map_eq_some_iff.mp hlookup.symm
          have hagrees := field_agrees htype field.name values
          rw [← hok] at hagrees
          rw [hvalue]
          exact hagrees

/-! ### Both sides together -/

/-- Query parameters survive the wire. Strings, integers, booleans and arrays of them, under names
without an index in brackets, are read by the server as the client wrote them. For every query, the
values of a declared parameter, and all parameters together, are the same through the lexicon and by
the types that correspond, or both ways reject them. -/
theorem params_survive (floatText : ℕ → Bytes) (declared : ParamsDef)
    (hdeclared : ∀ name field, declared.properties.lookup name = some field →
      (fieldType field).isSome = true ∧ utf8 name = true ∧ ¬Bracketed name) :
  (∀ map : List (Bytes × Json Number), (map.map Prod.fst).Pairwise (· < ·) →
    (∀ member ∈ map, Declared declared member) →
    ∃ pairs, queryPairs floatText (.object map) = .ok pairs
      ∧ (Params.fromQuery (formSerialize pairs)).decode (some declared) = .ok map)
  ∧ (∀ key values field type, declared.properties.lookup key = some field →
    fieldType field = some type →
    ((decodeEntry (some field) key values).toOption.bind fun json => (fromJson json type).toOption)
      = (deserializeValues values type).toOption)
  ∧ ∀ query fields, Mirrors declared fields →
    ((Params.fromQuery query).decode (some declared)).toOption.bind (fun json =>
      ({ Params.fromQuery query with json := some json }.deserialize fields).toOption)
    = ((Params.fromQuery query).deserialize fields).toOption
  := by
  refine ⟨?_, ?_, ?_⟩
  · intro map hsorted hmap
    obtain ⟨entries, hpairs, hcarries⟩ := @queryPairs_eq floatText _ _ hmap
    have hkeys := keys_of_carries hcarries
    refine ⟨_, hpairs, ?_⟩
    rw [fromQuery_formSerialize]
    · exact decode_of_carries hcarries hsorted
    · rw [hkeys]
      exact hsorted.imp ne_of_lt
    · intro entry hentry
      obtain ⟨member, hmember, hcarry⟩ := exists_of_carries hcarries hentry
      obtain ⟨field, type, hlookup, -, -⟩ := hmap member hmember
      obtain ⟨-, hname, hbrackets⟩ := hdeclared member.1 field hlookup
      rw [hcarry.key]
      exact ⟨hcarry.nonempty, hname, hbrackets, hcarry.values⟩
  · intro key values field type _ htype
    exact decodeEntry_agrees htype key values
  · intro query fields hfields
    exact deserialize_agrees hfields query

/-- A method with a parameter of each type. -/
def searchParams : ParamsDef where
  properties := [(ascii "limit", .integer {} none), (ascii "q", .string {} none),
    (ascii "reverse", .boolean none none), (ascii "tags", .array (.string {} none) none none)]

theorem limit_inRange :
  -(2 ^ 63) ≤ (-5 : ℤ) ∧ (-5 : ℤ) < 2 ^ 63
  := by decide

/-- Values of the parameters. -/
def searchValues : List (Bytes × Json Number) :=
  [(ascii "limit", .number (I64.number ⟨-5, limit_inRange⟩)),
    (ascii "q", .string (ascii "a b&c=+%")),
    (ascii "tags", .array [.string (ascii "x"), .string (ascii "x")])]

theorem not_bracketed (h : name.getLast? ≠ some (char ']')) :
  ¬Bracketed name
  := by
  rintro ⟨base, index, rfl, -⟩
  exact h List.getLast?_concat

theorem searchParams_declared (h : searchParams.properties.lookup name = some field) :
  (fieldType field).isSome = true ∧ utf8 name = true ∧ ¬Bracketed name
  := by
  have hmem := List.mem_of_lookup h
  simp only [searchParams, List.mem_cons, Prod.mk.injEq, List.not_mem_nil, or_false] at hmem
  rcases hmem with ⟨rfl, rfl⟩ | ⟨rfl, rfl⟩ | ⟨rfl, rfl⟩ | ⟨rfl, rfl⟩
  all_goals exact ⟨rfl, by decide, not_bracketed (by decide)⟩

theorem searchValues_declared :
  ∀ member ∈ searchValues, Declared searchParams member
  := by
  have htext : ∀ s : Bytes, s ≠ [] ∧ utf8 s = true → IsScalar .string (.string s) :=
    fun s hs => .string hs.1 hs.2
  intro member hmember
  simp only [searchValues, List.mem_cons, List.not_mem_nil, or_false] at hmember
  rcases hmember with rfl | rfl | rfl
  · exact ⟨_, _, rfl, rfl, .scalar (.i64 _)⟩
  · exact ⟨_, _, rfl, rfl, .scalar (htext _ (by decide))⟩
  · refine ⟨_, _, rfl, rfl, .vec (List.cons_ne_nil _ _) ?_⟩
    intro item hitem
    simp only [List.mem_cons, List.not_mem_nil, or_false, or_self] at hitem
    rw [hitem]
    exact htext _ (by decide)

/-- Some parameters that survive the wire. -/
theorem search_survives :
  ∃ pairs, queryPairs (fun _ => []) (.object searchValues) = .ok pairs
    ∧ (Params.fromQuery (formSerialize pairs)).decode (some searchParams) = .ok searchValues
  := (params_survive _ searchParams fun _ _ => searchParams_declared).1 searchValues (by decide)
    searchValues_declared

end Shrike.Xrpc
