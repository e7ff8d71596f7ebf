import Shrike.Cbor.Json

/-!
# JSON through DRISL and back

What `jsonToDrisl` writes is read back within the limits of the decoder, and gives the JSON it
was written from in its normal form: integral floats are integers, byte strings are base64
without padding, and CIDs are base32.
-/

namespace Shrike.Cbor

open Bytes Except

/-! ### The order of keys -/

/-- The order of map keys: by length, then bytewise. -/
def keyOrder (key : Bytes) : ℕ ×ₗ Bytes := toLex (key.length, key)

theorem keyLt_iff {a b : Bytes} :
  keyLt a b = true ↔ keyOrder a < keyOrder b
  := by
  rw [keyLt, keyOrder, keyOrder, Prod.Lex.toLex_lt_toLex]
  split
  · rename_i hlen
    simp [hlen]
  · rename_i hlen
    simp [not_not.mp hlen]

theorem cborKeyCmp_ne_gt {a b : Bytes} :
  cborKeyCmp a b ≠ .gt ↔ keyOrder a ≤ keyOrder b
  := by
  have hlt : cborKeyCmp a b = .lt ↔ keyOrder a < keyOrder b := cborKeyCmp_eq_lt.trans keyLt_iff
  rw [cborKeyCmp] at hlt ⊢
  split at hlt
  · rename_i hlen
    rw [if_pos hlen, le_iff_lt_or_eq, ← hlt]
    have hne : keyOrder a ≠ keyOrder b := by
      intro heq
      apply hlen (congrArg (fun x => (ofLex x).1) heq)
    rcases hcmp : compare a.length b.length with _ | _ | _
    · simp
    · exact absurd (compare_eq_iff_eq.mp hcmp) hlen
    · simp [hne]
  · rename_i hlen
    rw [if_neg hlen]
    obtain ⟨-, hgt, heq⟩ := cmpWords_spec (n := a.length / 8) (not_not.mp hlen)
    rcases hcmp : cmpWords (a.length / 8) a b with _ | _ | _
    · simp [(hlt.mp hcmp).le]
    · simp [heq hcmp]
    · rw [ne_eq, eq_self, not_true_eq_false, false_iff, not_le, keyOrder, keyOrder,
        Prod.Lex.toLex_lt_toLex]
      exact .inr ⟨(not_not.mp hlen).symm, hgt hcmp⟩

/-- Fields sorted for the encoder are in the order of map keys. -/
theorem sorted_keyLt {α : Type} {fields : List (Bytes × α)}
    (hnodup : (fields.map Prod.fst).Nodup) :
  (fields.insertionSort (fun a b => cborKeyCmp a.1 b.1 ≠ .gt)).Pairwise
    (fun a b => keyLt a.1 b.1 = true)
  := by
  let r : Bytes × α → Bytes × α → Prop := fun a b => cborKeyCmp a.1 b.1 ≠ .gt
  have htotal : Std.Total r :=
    ⟨fun a b => by
      show cborKeyCmp a.1 b.1 ≠ .gt ∨ cborKeyCmp b.1 a.1 ≠ .gt
      rw [cborKeyCmp_ne_gt, cborKeyCmp_ne_gt]
      apply le_total⟩
  have htrans : IsTrans (Bytes × α) r :=
    ⟨fun a b c => by
      show cborKeyCmp a.1 b.1 ≠ .gt → cborKeyCmp b.1 c.1 ≠ .gt → cborKeyCmp a.1 c.1 ≠ .gt
      rw [cborKeyCmp_ne_gt, cborKeyCmp_ne_gt, cborKeyCmp_ne_gt]
      apply le_trans⟩
  have hsorted := List.pairwise_insertionSort r fields
  have hperm := List.perm_insertionSort r fields
  have hdistinct := List.pairwise_map.mp ((hperm.map Prod.fst).nodup_iff.mpr hnodup)
  apply (hsorted.and hdistinct).imp
  rintro a b ⟨hle, hne⟩
  rw [keyLt_iff]
  apply lt_of_le_of_ne (cborKeyCmp_ne_gt.mp hle)
  intro heq
  apply hne (congrArg (fun x => (ofLex x).2) heq)

/-! ### JSON values -/

/-- A string: UTF-8 of a length that the address space holds. -/
def IsText (s : Bytes) : Prop := Bytes.utf8 s = true ∧ s.length < 2 ^ 64

mutual

/-- What every JSON value in memory is: its strings and keys are strings, and the fields of an
object are in the order of their keys. -/
def WellFormed : Json Number → Prop
  | .null => True
  | .bool _ => True
  | .number _ => True
  | .string s => IsText s
  | .array items => WellFormedItems items
  | .object fields => (fields.map Prod.fst).Pairwise (· < ·) ∧ WellFormedFields fields

/-- The items of an array are well-formed. -/
def WellFormedItems : List (Json Number) → Prop
  | [] => True
  | item :: items => WellFormed item ∧ WellFormedItems items

/-- The fields of an object are well-formed. -/
def WellFormedFields : List (Bytes × Json Number) → Prop
  | [] => True
  | (key, value) :: fields => IsText key ∧ WellFormed value ∧ WellFormedFields fields

end

theorem wellFormedItems_iff :
  ∀ {items : List (Json Number)}, WellFormedItems items ↔ ∀ item ∈ items, WellFormed item
  | [] => by simp [WellFormedItems]
  | item :: items => by simp [WellFormedItems, @wellFormedItems_iff items]

theorem wellFormedFields_iff :
  ∀ {fields : List (Bytes × Json Number)},
    WellFormedFields fields ↔ ∀ f ∈ fields, IsText f.1 ∧ WellFormed f.2
  | [] => by simp [WellFormedFields]
  | (key, value) :: fields => by
      simp [WellFormedFields, @wellFormedFields_iff fields, and_assoc]

/-! ### Numbers -/

theorem floatMagnitude_lt {bits n : ℕ} (h : floatMagnitude bits = some n) :
  n < 2 ^ 53
  := by
  have hfraction : bits % 2 ^ 52 < 2 ^ 52 := Nat.mod_lt _ (by positivity)
  rw [floatMagnitude] at h
  split at h
  · split at h
    · cases h
      positivity
    · cases h
  · split at h
    · cases h
    · split at h
      · cases h
        apply lt_of_le_of_lt (Nat.div_le_self _ _)
        omega
      · cases h

variable {v : ℤ}

theorem Number.value_bounds {n : Number} (h : n.value = some v) :
  -(2 ^ 63) ≤ v ∧ v < 2 ^ 63
  := by
  cases n with
  | posInt n hn =>
      rw [value] at h
      split at h
      · cases h
        omega
      · cases h
  | negInt i hi =>
      cases h
      omega
  | float bits hbits =>
      obtain ⟨n, hn, rfl⟩ := Option.map_eq_some_iff.mp h
      have hlt := floatMagnitude_lt hn
      split <;> omega

/-- The number with an integral float replaced by the integer that it is. -/
def Number.normalise (n : Number) : Number :=
  match h : n.value with
  | some v => .ofInt v (value_bounds h)
  | none => n

theorem Number.ofInt_of_nonneg (h : -(2 ^ 63) ≤ v ∧ v < 2 ^ 63) (hv : 0 ≤ v) :
  ofInt v h = .posInt v.toNat (toNat_lt h)
  := by
  rw [ofInt, dif_pos hv]

theorem Number.normalise_of_value {n : Number} (h : n.value = some v) :
  n.normalise = .ofInt v (value_bounds h)
  := by
  rw [normalise]
  split
  · rename_i w hw
    obtain rfl := Option.some.inj (h.symm.trans hw)
    rfl
  · rename_i hnone
    rw [h] at hnone
    cases hnone

theorem integer_value {n : Number} {integers : Integers} (h : integer n integers = .ok v) :
  n.value = some v
  := by
  unfold integer at h
  split at h
  · rename_i hv
    cases h
    apply hv
  · rename_i hv
    split at h
    · cases h
      apply hv
    · cases h
  · cases h

/-! ### The normal form -/

section Normal

variable [DataEncoding]

/-- The normal form of an object whose only field holds a string. -/
def normaliseMember (key s : Bytes) : Json Number :=
  match specialMember key s, base64Body s with
  | .ok (some (.cid c)), _ => single "$link" (cidToString c)
  | .ok (some (.bytes _)), some text => single "$bytes" text
  | _, _ => .object [(key, .string s)]

mutual

/-- The normal form of a JSON value: integral floats are integers, byte strings are base64
without padding, and CIDs are base32. -/
def normalise : Json Number → Json Number
  | .null => .null
  | .bool b => .bool b
  | .number n => .number n.normalise
  | .string s => .string s
  | .array items => .array (normaliseItems items)
  | .object [(key, .string s)] => normaliseMember key s
  | .object fields => .object (normaliseFields fields)

/-- The normal forms of the items of an array. -/
def normaliseItems : List (Json Number) → List (Json Number)
  | [] => []
  | item :: items => normalise item :: normaliseItems items

/-- The normal forms of the fields of an object. -/
def normaliseFields : List (Bytes × Json Number) → List (Bytes × Json Number)
  | [] => []
  | (key, value) :: fields => (key, normalise value) :: normaliseFields fields

end

theorem normaliseFields_eq :
  ∀ fields : List (Bytes × Json Number),
    normaliseFields fields = fields.map fun f => (f.1, normalise f.2)
  | [] => rfl
  | (key, value) :: fields => by rw [normaliseFields, normaliseFields_eq fields, List.map_cons]

/-- The limits of the decoder, with `budget` levels of nesting left. An object that stands for a
CID or a byte string is not nested. -/
def WithinLimits : ℕ → Json Number → Prop
  | 0, _ => False
  | budget + 1, .array items =>
      items.length ≤ maxCollectionLen ∧ ∀ item ∈ items, WithinLimits budget item
  | budget + 1, .object fields =>
      (∃ x, special fields = .ok (some x))
        ∨ fields.length ≤ maxCollectionLen ∧ ∀ f ∈ fields, WithinLimits budget f.2
  | _ + 1, _ => True

/-! ### Encoding and decoding -/

/-- `Represents budget json bs v`: the value `v` is within the limits of the decoder, `bs` is its
encoding, and it converts to the normal form of `json`. -/
structure Represents (budget : ℕ) (json : Json Number) (bs : Bytes) (v : Value) : Prop where
  fits : v.Fits budget
  written : writeItem v = .ok bs
  read : valueToJson v = .ok (normalise json)

/-- The integer that a number is by value is read back. -/
theorem represents_number {budget : ℕ} {n : Number} {v : ℤ} (h : n.value = some v) :
  ∃ w, Represents (budget + 1) (.number n) (putInteger v) w
  := by
  have hbounds := Number.value_bounds h
  have hnormal := Number.normalise_of_value h
  rcases le_or_gt 0 v with hv | hv
  · use .unsigned v.toNat
    constructor
    · show v.toNat ≤ 2 ^ 63 - 1
      omega
    · rw [putInteger, if_pos hv, writeItem]
    · rw [valueToJson, dif_pos (by omega), normalise, hnormal, Number.ofInt_of_nonneg _ hv]
  · use .signed v
    constructor
    · exact ⟨hv, hbounds.1⟩
    · rw [writeItem, putInteger]
    · rw [valueToJson, dif_pos hbounds, normalise, hnormal]

variable {b k s bs key body prev rest rest' text suffix encoded : Bytes}

omit [DataEncoding] in
theorem stripSuffix_length (h : stripSuffix suffix s = some body) :
  body.length ≤ s.length
  := by
  rw [stripSuffix] at h
  split at h
  · cases h
    apply List.length_take_le'
  · cases h

omit [DataEncoding] in
theorem base64Body_length (h : base64Body s = some text) :
  text.length ≤ s.length
  := by
  rw [base64Body] at h
  generalize hbody : ((stripSuffix (ascii "==") s).or (stripSuffix (ascii "=") s)).getD s = body at h
  have hlen : body.length ≤ s.length := by
    rcases htwo : stripSuffix (ascii "==") s with _ | two
    · rcases hone : stripSuffix (ascii "=") s with _ | one
      · rw [htwo, hone] at hbody
        rw [← hbody]
        rfl
      · rw [htwo, hone] at hbody
        rw [← hbody]
        apply stripSuffix_length hone
    · rw [htwo] at hbody
      rw [← hbody]
      apply stripSuffix_length htwo
  split at h
  · cases h
  · obtain ⟨mask, -, h⟩ := Option.bind_eq_some_iff.mp h
    split at h
    · cases h
      apply hlen
    · rename_i last hlast
      obtain ⟨index, -, h⟩ := Option.bind_eq_some_iff.mp h
      obtain ⟨cleared, -, h⟩ := Option.bind_eq_some_iff.mp h
      cases h
      have hne : body ≠ [] := by
        rintro rfl
        cases hlast
      have hpos := List.length_pos_iff.mpr hne
      rw [List.length_append, List.length_dropLast, List.length_singleton]
      omega

variable {fields : List (Bytes × Json Number)}

/-- What an object with a single key stands for. -/
theorem special_some {x : Special} (h : special fields = .ok (some x)) :
  ∃ key s, fields = [(key, .string s)] ∧ specialMember key s = .ok (some x)
  := by
  unfold special at h
  split at h
  · exact ⟨_, _, rfl, h⟩
  · cases h

theorem specialMember_bytes (h : specialMember key s = .ok (some (.bytes b))) :
  decodeBase64 s = some b
  := by
  rw [specialMember] at h
  split at h
  · split at h
    · cases h
    · rename_i c _
      cases c with
      | none => cases h
      | some c => cases h
  · split at h
    · rcases hb : decodeBase64 s with _ | b'
      · rw [hb] at h
        cases h
      · rw [hb] at h
        cases h
        rfl
    · cases h

/-- What an object stands for is read back. -/
theorem represents_special {budget : ℕ} {x : Special}
    (hwf : WellFormed (.object fields)) (h : special fields = .ok (some x)) :
  ∃ v, Represents (budget + 1) (.object fields)
    (match x with | .cid c => putCid c | .bytes b => putBytes b) v
  := by
  obtain ⟨key, s, rfl, hmember⟩ := special_some h
  cases x with
  | cid c =>
      use .cid c
      constructor
      · trivial
      · rfl
      · rw [normalise, normaliseMember, hmember, valueToJson]
  | bytes b =>
      obtain ⟨text, htext, hdecode⟩ := Option.bind_eq_some_iff.mp (specialMember_bytes hmember)
      have hbase64 := DataEncoding.base64_of_decode hdecode
      use .bytes b
      constructor
      · have hs : s.length < 2 ^ 64 := hwf.2.2.1.2
        have hlen := DataEncoding.length_le_base64 b
        rw [hbase64] at hlen
        exact lt_of_le_of_lt (hlen.trans (base64Body_length htext)) hs
      · rfl
      · rw [normalise, normaliseMember, hmember, htext, valueToJson, hbase64]

/-- The items of an array are read back. -/
theorem represents_items {budget : ℕ} {integers : Integers} :
  ∀ {items : List (Json Number)} {bs : Bytes},
    (∀ item ∈ items, ∀ bs, encodeJson integers item = .ok bs → ∃ v, Represents budget item bs v) →
    encodeJsonItems integers items = .ok bs →
    ∃ vs : List Value, vs.length = items.length ∧ (∀ v ∈ vs, v.Fits budget)
      ∧ writeItems vs = .ok bs ∧ itemsToJson vs = .ok (normaliseItems items)
  | [], _, _, h => by
      cases h
      exact ⟨[], rfl, by simp, rfl, rfl⟩
  | item :: items, bs, hitems, h => by
      rw [encodeJsonItems] at h
      obtain ⟨head, hhead, h⟩ := bind_eq_ok.mp h
      obtain ⟨rest, hrest, h⟩ := bind_eq_ok.mp h
      cases h
      obtain ⟨v, hv⟩ := hitems item List.mem_cons_self head hhead
      obtain ⟨vs, hlen, hfits, hwrite, hread⟩ := represents_items
        (fun item' hmem => hitems item' (List.mem_cons_of_mem _ hmem)) hrest
      refine ⟨v :: vs, by simp [hlen], ?_, ?_, ?_⟩
      · intro w hw
        rcases List.mem_cons.mp hw with rfl | hw
        · apply hv.fits
        · apply hfits w hw
      · rw [writeItems, hv.written, ok_bind, hwrite, ok_bind]
      · rw [itemsToJson, hv.read, ok_bind, hread, ok_bind, normaliseItems]

/-- The fields of an object, in the order of map keys, are read back. -/
theorem represents_fields {budget : ℕ} {integers : Integers} :
  ∀ {fields : List (Bytes × Json Number)} {prev : Option Bytes} {parts : List Bytes},
    (∀ f ∈ fields, IsText f.1
      ∧ ∀ bs, encodeJson integers f.2 = .ok bs → ∃ v, Represents budget f.2 bs v) →
    (∀ p ∈ prev, ∀ f ∈ fields, keyLt p f.1 = true) →
    fields.Pairwise (fun a b => keyLt a.1 b.1 = true) →
    (fields.mapM fun f => (encodeJson integers f.2).map fun value => putText f.1 ++ value)
      = .ok parts →
    ∃ entries : List (Bytes × Value), entries.length = fields.length
      ∧ (∀ e ∈ entries, IsText e.1 ∧ e.2.Fits budget)
      ∧ writeEntries prev entries = .ok parts.flatten
      ∧ entriesToJson entries = .ok (normaliseFields fields)
  | [], _, _, _, _, _, h => by
      cases h
      exact ⟨[], rfl, by simp, rfl, rfl⟩
  | (key, value) :: fields, prev, parts, hfields, hprev, hsorted, h => by
      rw [List.mapM_cons] at h
      obtain ⟨part, hpart, h⟩ := bind_eq_ok.mp h
      obtain ⟨rest, hrest, h⟩ := bind_eq_ok.mp h
      cases h
      obtain ⟨hlt, hsorted⟩ := List.pairwise_cons.mp hsorted
      obtain ⟨htext, hvalue⟩ := hfields (key, value) List.mem_cons_self
      rcases henc : encodeJson integers value with e | bs
      · rw [henc] at hpart
        cases hpart
      · rw [henc] at hpart
        cases hpart
        obtain ⟨v, hv⟩ := hvalue bs henc
        obtain ⟨entries, hlen, hfits, hwrite, hread⟩ := (@represents_fields _ _ fields (some key))
          (fun f hf => hfields f (List.mem_cons_of_mem _ hf))
          (by
            intro p hp f hf
            obtain rfl := Option.some.inj hp
            apply hlt f hf) hsorted hrest
        refine ⟨(key, v) :: entries, by simp [hlen], ?_, ?_, ?_⟩
        · intro e he
          rcases List.mem_cons.mp he with rfl | he
          · exact ⟨htext, hv.fits⟩
          · apply hfits e he
        · have hord : ¬ prev.any (fun p => !keyLt p key) = true := by
            cases prev with
            | none => simp
            | some p => simp [hprev p rfl (key, value) List.mem_cons_self]
          rw [writeEntries, if_neg hord, hv.written, hwrite]
          rfl
        · rw [entriesToJson, hv.read, ok_bind, hread, ok_bind, normaliseFields]

theorem normalise_object (h : special fields = .ok none) :
  normalise (.object fields) = .object (normaliseFields fields)
  := by
  unfold special at h
  split at h
  · rename_i key s
    rw [normalise, normaliseMember, h]
    rfl
  · rename_i hmember
    rw [normalise]
    apply hmember

theorem encodeJsonFields_eq (integers : Integers) :
  ∀ fields : List (Bytes × Json Number),
    encodeJsonFields integers fields = fields.map fun f => (f.1, encodeJson integers f.2)
  | [] => rfl
  | (key, value) :: fields => by
      rw [encodeJsonFields, encodeJsonFields_eq integers fields, List.map_cons]

/-- The fields of an object are written in the order of map keys. -/
theorem encodeSorted_parts {integers : Integers}
    (h : encodeSorted (encodeJsonFields integers fields) = .ok body) :
  ∃ (sorted : List (Bytes × Json Number)) (parts : List Bytes), sorted.Perm fields
    ∧ ((fields.map Prod.fst).Nodup → sorted.Pairwise (fun a b => keyLt a.1 b.1 = true))
    ∧ (sorted.mapM fun f => (encodeJson integers f.2).map fun value => putText f.1 ++ value)
      = .ok parts
    ∧ body = parts.flatten
  := by
  rw [encodeSorted] at h
  obtain ⟨parts, hparts, h⟩ := bind_eq_ok.mp h
  cases h
  refine ⟨fields.insertionSort (fun a b => cborKeyCmp a.1 b.1 ≠ .gt), parts,
    List.perm_insertionSort _ _, sorted_keyLt, ?_, rfl⟩
  rw [encodeJsonFields_eq, ← List.map_insertionSort (fun a b => cborKeyCmp a.1 b.1 ≠ .gt) _ _ _
    (fun _ _ _ _ => Iff.rfl), List.mapM_map] at hparts
  apply hparts

/-- A plain map is read back. -/
theorem represents_object {budget : ℕ} {integers : Integers} (hwf : WellFormed (.object fields))
    (hspecial : special fields = .ok none)
    (hlen : fields.length ≤ maxCollectionLen)
    (hfields : ∀ f ∈ fields, ∀ bs, encodeJson integers f.2 = .ok bs →
      ∃ v, Represents budget f.2 bs v)
    (h : encodeSorted (encodeJsonFields integers fields) = .ok body) :
  ∃ v, Represents (budget + 1) (.object fields) (putHead 5 fields.length ++ body) v
  := by
  obtain ⟨sorted, parts, hperm, hchain, hmapM, rfl⟩ := encodeSorted_parts h
  obtain ⟨entries, hlength, hfits, hwrite, hread⟩ := (@represents_fields _ _ _ sorted none)
    (fun f hf => ⟨(wellFormedFields_iff.mp hwf.2 f (hperm.mem_iff.mp hf)).1,
      hfields f (hperm.mem_iff.mp hf)⟩)
    (by simp) (hchain (hwf.1.imp ne_of_lt)) hmapM
  rw [hperm.length_eq] at hlength
  use .map entries
  constructor
  · exact ⟨hlength.trans_le hlen, hfits⟩
  · rw [writeItem, hwrite, ok_bind, hlength]
  · have hcollect : (normaliseFields sorted).collectEntries = normaliseFields fields := by
      rw [normaliseFields_eq, normaliseFields_eq]
      apply List.collectEntries_of_perm (hperm.map _)
      rw [List.map_map]
      apply hwf.1
    rw [valueToJson, hread, ok_bind, hcollect, normalise_object hspecial]

/-- What is written for JSON within the limits of the decoder is read back as the normal form of
the JSON. -/
theorem encodeJson_represents {integers : Integers} :
  ∀ {budget : ℕ} {json : Json Number} {bs : Bytes}, WellFormed json → WithinLimits budget json →
    encodeJson integers json = .ok bs → ∃ v, Represents budget json bs v
  | 0, _, _, _, hlimits, _ => by cases hlimits
  | _ + 1, .null, _, _, _, h => by
      cases h
      exact ⟨.null, trivial, rfl, rfl⟩
  | _ + 1, .bool b, _, _, _, h => by
      cases h
      exact ⟨.bool b, trivial, rfl, rfl⟩
  | _ + 1, .number n, _, _, _, h => by
      rw [encodeJson] at h
      obtain ⟨v, hv, h⟩ := bind_eq_ok.mp h
      cases h
      apply represents_number (integer_value hv)
  | _ + 1, .string s, _, hwf, _, h => by
      cases h
      exact ⟨.text s, hwf, rfl, rfl⟩
  | budget + 1, .array items, bs, hwf, hlimits, h => by
      rw [encodeJson] at h
      obtain ⟨body, hbody, h⟩ := bind_eq_ok.mp h
      cases h
      obtain ⟨vs, hlen, hfits, hwrite, hread⟩ := represents_items
        (fun item hitem bs hbs => encodeJson_represents (wellFormedItems_iff.mp hwf item hitem)
          (hlimits.2 item hitem) hbs) hbody
      use .array vs
      constructor
      · exact ⟨hlen.trans_le hlimits.1, hfits⟩
      · rw [writeItem, hwrite, ok_bind, hlen]
      · rw [valueToJson, hread, ok_bind, normalise]
  | budget + 1, .object fields, bs, hwf, hlimits, h => by
      rw [encodeJson] at h
      split at h
      · cases h
      · rename_i c hspecial
        cases h
        apply represents_special hwf hspecial
      · rename_i b hspecial
        cases h
        apply represents_special hwf hspecial
      · rename_i hspecial
        obtain ⟨body, hbody, h⟩ := bind_eq_ok.mp h
        cases h
        have hlimits := hlimits.resolve_left (by simp [hspecial])
        apply represents_object hwf hspecial hlimits.1 _ hbody
        intro f hf bs hbs
        apply encodeJson_represents (wellFormedFields_iff.mp hwf.2 f hf).2 (hlimits.2 f hf) hbs

/-- A JSON value in memory. -/
structure JsonValue where
  json : Json Number
  wellFormed : WellFormed json

/-- What is written for a JSON value within the limits of the decoder is read back, and gives the
normal form of the value. -/
theorem jsonToDrisl_read (value : JsonValue) (integers : Integers) {bs : Bytes}
    (hlimits : WithinLimits maxDepth value.json) (h : jsonToDrisl value.json integers = .ok bs) :
  (∃ v, decode bs = .ok v) ∧ drislToJson bs = .ok (normalise value.json)
  := by
  obtain ⟨v, hv⟩ := encodeJson_represents value.wellFormed hlimits h
  have hdecode := decode_writeItem hv.fits hv.written
  refine ⟨⟨v, hdecode⟩, ?_⟩
  rw [drislToJson, hdecode]
  apply hv.read

/-! ### The limits of the decoder -/

omit [DataEncoding] in
/-- The length of a collection is read back from its head, if it is not too long. -/
theorem putHead_collectionLen {major : ℕ} (hmajor : major < 8) (n : ℕ) :
  ∃ b arg, putHead major n = b :: arg ∧ b.toNat / 32 = major ∧ ∀ tooLong bs len rest,
    collectionLen (b.toNat % 32) tooLong (arg ++ bs) = .ok (len, rest) →
      n ≤ maxCollectionLen ∧ len = n ∧ rest = bs
  := by
  by_cases hn : n < 2 ^ 64
  · obtain ⟨b, arg, hput, hb, hread⟩ := putHead_read hmajor hn
    refine ⟨b, arg, hput, hb, ?_⟩
    intro tooLong bs len rest h
    rw [collectionLen, hread, ok_bind] at h
    dsimp only at h
    split_ifs at h with hlong
    cases h
    exact ⟨Nat.le_of_not_lt hlong, rfl, rfl⟩
  · have hbyte : (UInt8.ofNat (major * 32 + 27)).toNat = major * 32 + 27 := by
      rw [UInt8.toNat_ofNat', Nat.mod_eq_of_lt (by omega)]
    refine ⟨UInt8.ofNat (major * 32 + 27), Bytes.be 8 n, ?_, ?_, ?_⟩
    · rw [putHead, if_neg (by omega), if_neg (by omega), if_neg (by omega), if_neg (by omega)]
    · rw [hbyte]
      omega
    · intro tooLong bs len rest h
      have hmod : (UInt8.ofNat (major * 32 + 27)).toNat % 32 = 27 := by
        rw [hbyte]
        omega
      rw [hmod] at h
      change (readWide 8 4294967295 (Bytes.be 8 n ++ bs) >>= fun p =>
        if p.1 > maxCollectionLen then .error tooLong else .ok (p.1, p.2)) = .ok (len, rest) at h
      obtain ⟨p, hp, h⟩ := bind_eq_ok.mp h
      rw [readWide, readSlice_append (Bytes.length_be 8 n), ok_bind] at hp
      dsimp only at hp
      split_ifs at hp with hminimal
      cases hp
      dsimp only at h
      rw [maxCollectionLen] at h
      split_ifs at h
      omega

omit [DataEncoding] in
theorem decodeValue_array {budget n : ℕ} {v : Value}
    (h : decodeValue (budget + 1) (putHead 4 n ++ bs) = .ok (v, rest)) :
  n ≤ maxCollectionLen ∧ ∃ items, decodeItems (decodeValue budget) n bs = .ok (items, rest)
  := by
  obtain ⟨b, arg, hput, hmajor, hlen⟩ := putHead_collectionLen (by omega : 4 < 8) n
  simp only [hput, List.cons_append, decodeValue, readByte, ok_bind, hmajor] at h
  obtain ⟨⟨len, bs'⟩, hread, hcollection⟩ := bind_eq_ok.mp h
  obtain ⟨hle, hlength, hbs⟩ := hlen _ _ _ _ hread
  obtain ⟨⟨items, rest'⟩, hitems, heq⟩ := bind_eq_ok.mp hcollection
  cases heq
  dsimp only at hitems
  rw [hlength, hbs] at hitems
  exact ⟨hle, items, hitems⟩

omit [DataEncoding] in
theorem decodeValue_map {budget n : ℕ} {v : Value}
    (h : decodeValue (budget + 1) (putHead 5 n ++ bs) = .ok (v, rest)) :
  n ≤ maxCollectionLen
    ∧ ∃ entries, decodeEntries (decodeValue budget) n [] bs = .ok (entries, rest)
  := by
  obtain ⟨b, arg, hput, hmajor, hlen⟩ := putHead_collectionLen (by omega : 5 < 8) n
  simp only [hput, List.cons_append, decodeValue, readByte, ok_bind, hmajor] at h
  obtain ⟨⟨len, bs'⟩, hread, hcollection⟩ := bind_eq_ok.mp h
  obtain ⟨hle, hlength, hbs⟩ := hlen _ _ _ _ hread
  obtain ⟨⟨entries, rest'⟩, hentries, heq⟩ := bind_eq_ok.mp hcollection
  cases heq
  dsimp only at hentries
  rw [hlength, hbs] at hentries
  exact ⟨hle, entries, hentries⟩

omit [DataEncoding] in
/-- A key that is read is the one that was written. -/
theorem readMapKey_eq (htext : IsText key)
    (h : readMapKey prev (putText key ++ bs) = .ok (k, encoded, rest)) :
  rest = bs
  := by
  obtain ⟨b, arg, hput, hmajor, harg⟩ := putHead_read (by omega : 3 < 8) htext.2
  have hread : readByte (putText key ++ bs) = .ok (b, arg ++ key ++ bs) := by
    rw [putText, hput]
    rfl
  rw [readMapKey, hread, ok_bind] at h
  dsimp only at h
  split_ifs at h with htype
  obtain ⟨⟨k', rest'⟩, hstring, h⟩ := bind_eq_ok.mp h
  rw [readString_put harg] at hstring
  cases hstring
  dsimp only at h
  split_ifs at h
  cases h
  rfl

/-- The items of an array that is read are within the limits. -/
theorem withinLimits_of_decodeItems {budget : ℕ} {integers : Integers} :
  ∀ {items : List (Json Number)} {bs rest rest' : Bytes} {vs : List Value},
    (∀ item ∈ items, WellFormed item) →
    (∀ item ∈ items, ∀ bs rest v rest', encodeJson integers item = .ok bs →
      decodeValue budget (bs ++ rest) = .ok (v, rest') → WithinLimits budget item) →
    encodeJsonItems integers items = .ok bs →
    decodeItems (decodeValue budget) items.length (bs ++ rest) = .ok (vs, rest') →
    ∀ item ∈ items, WithinLimits budget item
  | [], _, _, _, _, _, _, _, _ => nofun
  | item :: items, bs, rest, rest', vs, hwf, hitems, hbs, h => by
      rw [encodeJsonItems] at hbs
      obtain ⟨head, hhead, hbs⟩ := bind_eq_ok.mp hbs
      obtain ⟨tail, htail, hbs⟩ := bind_eq_ok.mp hbs
      cases hbs
      rw [List.length_cons, decodeItems, List.append_assoc] at h
      obtain ⟨⟨v, after⟩, hv, h⟩ := bind_eq_ok.mp h
      obtain ⟨⟨ws, after'⟩, hws, h⟩ := bind_eq_ok.mp h
      have hwithin := hitems item List.mem_cons_self head _ v after hhead hv
      obtain ⟨w, hw⟩ := encodeJson_represents (hwf item List.mem_cons_self) hwithin hhead
      rw [decodeValue_writeItem _ hw.fits hw.written] at hv
      cases hv
      rw [List.forall_mem_cons]
      exact ⟨hwithin, withinLimits_of_decodeItems
        (fun item' hitem' => hwf item' (List.mem_cons_of_mem item hitem'))
        (fun item' hitem' => hitems item' (List.mem_cons_of_mem item hitem')) htail hws⟩

/-- The fields of an object that is read are within the limits. -/
theorem withinLimits_of_decodeEntries {budget : ℕ} {integers : Integers} :
  ∀ {fields : List (Bytes × Json Number)} {prev rest rest' : Bytes} {parts : List Bytes}
    {entries : List (Bytes × Value)},
    (∀ f ∈ fields, IsText f.1 ∧ WellFormed f.2) →
    (∀ f ∈ fields, ∀ bs rest v rest', encodeJson integers f.2 = .ok bs →
      decodeValue budget (bs ++ rest) = .ok (v, rest') → WithinLimits budget f.2) →
    (fields.mapM fun f => (encodeJson integers f.2).map fun value => putText f.1 ++ value)
      = .ok parts →
    decodeEntries (decodeValue budget) fields.length prev (parts.flatten ++ rest)
      = .ok (entries, rest') →
    ∀ f ∈ fields, WithinLimits budget f.2
  | [], _, _, _, _, _, _, _, _, _ => nofun
  | (key, value) :: fields, prev, rest, rest', parts, entries, hwf, hfields, hparts, h => by
      rw [List.mapM_cons] at hparts
      obtain ⟨part, hpart, hparts⟩ := bind_eq_ok.mp hparts
      obtain ⟨others, hothers, hparts⟩ := bind_eq_ok.mp hparts
      cases hparts
      obtain ⟨bs, hbs, rfl⟩ := map_eq_ok.mp hpart
      obtain ⟨htext, hvalue⟩ := hwf (key, value) List.mem_cons_self
      rw [List.length_cons, decodeEntries, List.flatten_cons, List.append_assoc,
        List.append_assoc] at h
      obtain ⟨⟨k, encoded, after⟩, hkey, h⟩ := bind_eq_ok.mp h
      obtain rfl := readMapKey_eq htext hkey
      obtain ⟨⟨v, after⟩, hv, h⟩ := bind_eq_ok.mp h
      obtain ⟨⟨others', after'⟩, hrest, h⟩ := bind_eq_ok.mp h
      have hwithin := hfields (key, value) List.mem_cons_self bs _ v after hbs hv
      obtain ⟨w, hw⟩ := encodeJson_represents hvalue hwithin hbs
      rw [decodeValue_writeItem _ hw.fits hw.written] at hv
      cases hv
      rw [List.forall_mem_cons]
      exact ⟨hwithin, withinLimits_of_decodeEntries
        (fun f hf => hwf f (List.mem_cons_of_mem _ hf))
        (fun f hf => hfields f (List.mem_cons_of_mem _ hf)) hothers hrest⟩

/-- What is written for JSON is read back only within the limits of the decoder. -/
theorem withinLimits_of_decodeValue {integers : Integers} {budget : ℕ} {json : Json Number}
    {v : Value} (hwf : WellFormed json)
    (hbs : encodeJson integers json = .ok bs)
    (h : decodeValue budget (bs ++ rest) = .ok (v, rest')) :
  WithinLimits budget json
  := by
  induction budget generalizing json bs rest rest' v with
  | zero => cases h
  | succ budget ih =>
      cases json with
      | null => trivial
      | bool b => trivial
      | number n => trivial
      | string s => trivial
      | array items =>
          rw [encodeJson] at hbs
          obtain ⟨body, hbody, hbs⟩ := bind_eq_ok.mp hbs
          cases hbs
          rw [List.append_assoc] at h
          obtain ⟨hlen, vs, hvs⟩ := decodeValue_array h
          have hitems := wellFormedItems_iff.mp hwf
          exact ⟨hlen, withinLimits_of_decodeItems hitems
            (fun item hitem bs rest v rest' => ih (hitems item hitem)) hbody hvs⟩
      | object fields =>
          cases hspecial : special fields with
          | error e =>
              rw [encodeJson, hspecial] at hbs
              cases hbs
          | ok x =>
              cases x with
              | some x => exact .inl ⟨x, hspecial⟩
              | none =>
                  rw [encodeJson, hspecial] at hbs
                  obtain ⟨body, hbody, hbs⟩ := bind_eq_ok.mp hbs
                  cases hbs
                  rw [List.append_assoc] at h
                  obtain ⟨hlen, entries, hentries⟩ := decodeValue_map h
                  obtain ⟨sorted, parts, hperm, -, hmapM, rfl⟩ := encodeSorted_parts hbody
                  have hfields := wellFormedFields_iff.mp hwf.2
                  rw [← hperm.length_eq] at hentries
                  have hwithin := withinLimits_of_decodeEntries
                    (fun f hf => hfields f (hperm.mem_iff.mp hf))
                    (fun f hf bs rest v rest' => ih (hfields f (hperm.mem_iff.mp hf)).2) hmapM hentries
                  exact .inr ⟨hlen, fun f hf => hwithin f (hperm.mem_iff.mpr hf)⟩

/-- What is written for a JSON value is read back only within the limits of the decoder. -/
theorem withinLimits_of_decode (value : JsonValue) {integers : Integers} {v : Value}
    (hbs : jsonToDrisl value.json integers = .ok bs) (h : decode bs = .ok v) :
  WithinLimits maxDepth value.json
  := by
  obtain ⟨⟨w, rest⟩, hread, -⟩ := bind_eq_ok.mp h
  rw [← List.append_nil bs] at hread
  exact withinLimits_of_decodeValue value.wellFormed hbs hread

end Normal

/-! ### Examples -/

namespace Sample

attribute [local instance] DataEncoding.standard

/-- An integral float, a byte string with padding and a CID in base58. -/
def post : JsonValue where
  json := .object
    [(ascii "count", .number (.float 0x4045000000000000 (by decide))),
      (ascii "raw", .object [(ascii "$bytes", .string (ascii "aGk="))]),
      (ascii "ref", .object [(ascii "$link",
        .string (ascii "zdpuAsDo7UZTXQtgvtq6uKnJCYMkEvf8XAgPxn8rtopYnpTDh"))])]
  wellFormed := by
    simp only [WellFormed, WellFormedFields, IsText]
    decide

theorem post_withinLimits :
  WithinLimits maxDepth post.json
  := by
  have hsingle : ∀ key s budget, WithinLimits (budget + 2) (.object [(key, .string s)]) := by
    intro key s budget
    refine .inr ⟨by simp [maxCollectionLen], ?_⟩
    intro f hf
    obtain rfl := List.mem_singleton.mp hf
    trivial
  refine .inr ⟨by decide, ?_⟩
  intro f hf
  simp only [List.mem_cons, List.not_mem_nil, or_false] at hf
  rcases hf with rfl | rfl | rfl
  · trivial
  · apply hsingle
  · apply hsingle

/-- The example is written, and is read back in its normal form. -/
theorem post_jsonToDrisl_read :
  ∃ bs, jsonToDrisl post.json .safe = .ok bs ∧ drislToJson bs = .ok (normalise post.json)
  := by
  have hok : (jsonToDrisl post.json .safe).isOk = true := by decide +kernel
  rcases h : jsonToDrisl post.json .safe with e | bs
  · rw [h] at hok
    cases hok
  · exact ⟨bs, rfl, (jsonToDrisl_read post .safe post_withinLimits h).2⟩

/-- An array of arrays, `n` levels deep below the outermost. -/
def nested : ℕ → Json Number
  | 0 => .array []
  | n + 1 => .array [nested n]

theorem nested_wellFormed :
  ∀ n, WellFormed (nested n)
  | 0 => trivial
  | n + 1 => ⟨nested_wellFormed n, trivial⟩

/-- What is written for an array of 65 levels is not read back. -/
theorem nested_unread :
  ∃ value : JsonValue, ∃ bs, jsonToDrisl value.json .safe = .ok bs ∧ ¬ ∃ v, decode bs = .ok v
  := by
  use ⟨nested 64, nested_wellFormed 64⟩, List.replicate 64 0x81 ++ [0x80]
  constructor
  · decide +kernel
  · rintro ⟨v, hv⟩
    have hfails : (decode (List.replicate 64 0x81 ++ [0x80])).isOk = false := by decide +kernel
    rw [hv] at hfails
    cases hfails

end Sample

end Shrike.Cbor
