import Shrike.Cbor.DecoderAgreement
import Shrike.Cbor.JsonTable

/-!
# What the JSON writer writes

The text of a value, and that the writer appends it: whatever the depth of the value, the order of
its keys and the floats in it, which are reported later.
-/

namespace Shrike.Cbor

open Bytes Stateful Decoder

/-! ### The text of a value -/

section

variable [DataEncoding]

mutual

/-- The JSON text of a value, with nothing in the place of a float. -/
def Value.jsonText : Value → Bytes
  | .unsigned n => toText 10 n
  | .signed i => (if i < 0 then [char '-'] else []) ++ toText 10 i.natAbs
  | .float _ => []
  | .bool b => ascii (if b then "true" else "false")
  | .null => ascii "null"
  | .text s => jsonString s
  | .bytes b => 0x7b :: ascii "\"$bytes\":\"" ++ DataEncoding.base64 b ++ [0x22, 0x7d]
  | .cid c => 0x7b :: ascii "\"$link\":\"" ++ cidToString c ++ [0x22, 0x7d]
  | .array items => char '[' :: (join (char ',') (itemTexts items) ++ [char ']'])
  | .map entries =>
      0x7b :: (join (char ',')
        (((entryTexts entries).insertionSort fun a b => a.1 ≤ b.1).map Prod.snd) ++ [0x7d])

/-- The texts of the items of an array. -/
def itemTexts : List Value → List Bytes
  | [] => []
  | v :: vs => v.jsonText :: itemTexts vs

/-- The keys of a map with the texts of its entries. -/
def entryTexts : List (Bytes × Value) → List (Bytes × Bytes)
  | [] => []
  | (key, v) :: entries => (key, jsonString key ++ char ':' :: v.jsonText) :: entryTexts entries

end

/-- The text of a map entry. -/
def entryText (e : Bytes × Value) : Bytes := jsonString e.1 ++ char ':' :: e.2.jsonText

theorem entryTexts_cons (e : Bytes × Value) (entries : List (Bytes × Value)) :
  entryTexts (e :: entries) = (e.1, entryText e) :: entryTexts entries
  := rfl

theorem length_itemTexts (items : List Value) :
  (itemTexts items).length = items.length
  := by
  induction items with
  | nil => rfl
  | cons v vs ih => rw [itemTexts, List.length_cons, ih, List.length_cons]

theorem length_entryTexts :
  ∀ (entries : List (Bytes × Value)), (entryTexts entries).length = entries.length
  | [] => rfl
  | (key, v) :: entries => by
      rw [entryTexts, List.length_cons, length_entryTexts entries, List.length_cons]

end

mutual

/-- The first float in a value. -/
def Value.firstFloat : Value → Option ℕ
  | .float bits => some bits
  | .array items => firstFloatItems items
  | .map entries => firstFloatEntries entries
  | _ => none

/-- The first float in the items of an array. -/
def firstFloatItems : List Value → Option ℕ
  | [] => none
  | v :: vs => v.firstFloat.or (firstFloatItems vs)

/-- The first float in the entries of a map. -/
def firstFloatEntries : List (Bytes × Value) → Option ℕ
  | [] => none
  | (_, v) :: entries => v.firstFloat.or (firstFloatEntries entries)

end

/-! ### Writing while decoding -/

/-- The writer after more text, in which a float may be the first. -/
def JsonWriter.write (w : JsonWriter) (text : Bytes) (float : Option ℕ) : JsonWriter where
  out := w.out ++ text
  float := w.float.or float

theorem JsonWriter.write_write (w : JsonWriter) (text text' : Bytes) (float float' : Option ℕ) :
  (w.write text float).write text' float' = w.write (text ++ text') (float.or float')
  := by rw [write, write, write, List.append_assoc, Option.or_assoc]

theorem JsonWriter.write_none (w : JsonWriter) (text : Bytes) :
  w.write text none = { w with out := w.out ++ text }
  := by rw [write, Option.or_none]

/-- From a depth, a function of the unread bytes says what is decoded, and then what is written and
at which depth the decoder is. It fails when the function does, and then what was there before is
still there. -/
structure Writes {α β : Type} (w : JsonWriter) (k : ℕ) (k' : α → ℕ) (m : Writing β)
    (f : Bytes → Except Error (α × Bytes)) (g : α → β × JsonWriter) : Prop where
  ok {d : Decoder} {a : α} {rest : Bytes} (hd : d.Inside) (hk : d.depth = k)
    (h : f d.unread = .ok (a, rest)) :
    rest <:+ d.unread ∧ m (w, d) = (.ok (g a).1, (g a).2, d.leaving rest (k' a))
  error {d : Decoder} {e : Error} (hd : d.Inside) (hk : d.depth = k)
    (h : f d.unread = .error e) :
    ∃ e' w' d', m (w, d) = (.error e', w', d') ∧ w.out <+: w'.out

section

variable {α β γ δ : Type} {w : JsonWriter} {k : ℕ} {k' : α → ℕ} {k'' : γ → ℕ} {m : Writing β}
  {f f' : Bytes → Except Error (α × Bytes)} {g : α → β × JsonWriter}

/-- Decoding writes nothing. -/
theorem Reads.writes {m : Decoding α} (hm : Reads k k' m f) :
  Writes w k k' (decoding m) f (fun a => (a, w))
  where
  ok hd hk h := by
    obtain ⟨hsuffix, heq⟩ := hm.ok hd hk h
    refine ⟨hsuffix, ?_⟩
    rw [decoding, heq]
  error hd hk h := by
    obtain ⟨e', d', heq⟩ := hm.error hd hk h
    refine ⟨e', w, d', ?_, List.prefix_refl _⟩
    rw [decoding, heq]

theorem writes_fail (e e' : Error) :
  Writes w k k' (fail e) (fun _ => .error e') g
  where
  ok _ _ h := by cases h
  error {d _} _ _ _ := ⟨e, w, d, rfl, List.prefix_refl _⟩

/-- What reads nothing and cannot fail. -/
theorem writes_run {a : α}
    (h : ∀ d : Decoder, d.depth = k → m (w, d) = (.ok (g a).1, (g a).2, { d with depth := k' a })) :
  Writes w k k' m (fun bs => .ok (a, bs)) g
  where
  ok {d b rest} hd hk hf := by
    cases hf
    refine ⟨List.suffix_refl _, ?_⟩
    have hsame := leaving_unread hd
    rw [h d hk]
    conv_lhs => rw [← hsame]
    rfl
  error _ _ hf := by cases hf

/-- What is written next depends on what was read and written before. -/
theorem Writes.bind {n : β → Writing δ} {h : α → Bytes → Except Error (γ × Bytes)}
    {g' : γ → δ × JsonWriter} (hm : Writes w k k' m f g) (hgrow : ∀ a, w.out <+: (g a).2.out)
    (hn : ∀ a, (∃ bs rest, f bs = .ok (a, rest)) →
      Writes (g a).2 (k' a) k'' (n (g a).1) (h a) g') :
  Writes w k k'' (m >>= n) (fun bs => f bs >>= fun p => h p.1 p.2) g'
  where
  ok {d c rest} hd hk heq := by
    obtain ⟨⟨a, middle⟩, hf, hrest⟩ := Except.bind_eq_ok.mp heq
    obtain ⟨hsuffix, heq⟩ := hm.ok hd hk hf
    have hunread := unread_leaving hsuffix (k := k' a)
    rw [← hunread] at hrest
    obtain ⟨hsuffix', heq'⟩ := (hn a ⟨_, _, hf⟩).ok inside_leaving rfl hrest
    rw [hunread] at hsuffix'
    use hsuffix'.trans hsuffix
    rw [bind_of_ok heq, heq']
    rfl
  error {d e} hd hk herror := by
    cases hf : f d.unread with
    | error e' =>
        obtain ⟨e', w', d', heq, hpre⟩ := hm.error hd hk hf
        exact ⟨e', w', d', bind_of_error heq, hpre⟩
    | ok p =>
        obtain ⟨a, middle⟩ := p
        obtain ⟨hsuffix, heq⟩ := hm.ok hd hk hf
        rw [hf] at herror
        change h a middle = _ at herror
        rw [← unread_leaving hsuffix (k := k' a)] at herror
        obtain ⟨e', w', d', heq', hpre⟩ := (hn a ⟨_, _, hf⟩).error inside_leaving rfl herror
        exact ⟨e', w', d', by rw [bind_of_ok heq, heq'], (hgrow a).trans hpre⟩

theorem Writes.of_eq (hm : Writes w k k' m f g) (h : ∀ bs p, f' bs = .ok p ↔ f bs = .ok p) :
  Writes w k k' m f' g
  where
  ok hd hk hf := hm.ok hd hk ((h _ _).mp hf)
  error {d e} hd hk hf := by
    cases hsame : f d.unread with
    | error e' => exact hm.error hd hk hsame
    | ok p =>
        rw [(h _ _).mpr hsame] at hf
        cases hf

/-- What is decoded may be part of something else. -/
theorem Writes.map {c : α → γ} {g' : γ → β × JsonWriter}
    (hm : Writes w k (fun a => k'' (c a)) m f g) (h : ∀ a, g' (c a) = g a) :
  Writes w k k'' m (fun bs => f bs >>= fun p => .ok (c p.1, p.2)) g'
  where
  ok hd hk heq := by
    obtain ⟨⟨a, rest⟩, hf, hc⟩ := Except.bind_eq_ok.mp heq
    cases hc
    rw [h]
    exact hm.ok hd hk hf
  error {d e} hd hk herror := by
    cases hf : f d.unread with
    | error e' => exact hm.error hd hk hf
    | ok p =>
        rw [hf] at herror
        cases herror

theorem output_append (out : Bytes) (d : Decoder) :
  output (fun bs => bs ++ out) (w, d) = (.ok (), w.write out none, d)
  := by
  rw [JsonWriter.write_none]
  rfl

/-- Text, and then something else. -/
theorem Writes.after {t : Bytes} (hm : Writes (w.write t none) k k' m f g) :
  Writes w k k' (output (fun bs => bs ++ t) >>= fun _ => m) f g
  where
  ok {d a rest} hd hk h := by
    obtain ⟨hsuffix, heq⟩ := hm.ok hd hk h
    exact ⟨hsuffix, by rw [bind_of_ok (output_append t d), heq]⟩
  error {d e} hd hk h := by
    obtain ⟨e', w', d', heq, hpre⟩ := hm.error hd hk h
    exact ⟨e', w', d', by rw [bind_of_ok (output_append t d), heq],
      (List.prefix_append _ _).trans hpre⟩

/-- Something else, and then text. -/
theorem Writes.before {m : Writing Unit} {g : α → Unit × JsonWriter} (hm : Writes w k k' m f g)
    (hgrow : ∀ a, w.out <+: (g a).2.out) (out : Bytes) :
  Writes w k k' (m >>= fun _ => output (fun bs => bs ++ out)) f
    (fun a => ((), (g a).2.write out none))
  := by
  have htext : ∀ a, Writes (g a).2 (k' a) k' (output (fun bs => bs ++ out))
      (fun bs => .ok (a, bs)) (fun a => ((), (g a).2.write out none)) := by
    intro a
    apply writes_run
    intro d hdepth
    rw [output_append, ← hdepth]
  have hwrite := hm.bind (n := fun _ => output (fun bs => bs ++ out)) hgrow fun a _ => htext a
  apply hwrite.of_eq
  intro bs p
  rcases f bs with e | q <;> rfl

/-- What is done may depend on the state. -/
theorem Writes.look {n : JsonWriter × Decoder → Writing β}
    (hn : ∀ d, Writes w k k' (n (w, d)) f g) :
  Writes w k k' (current >>= n) f g
  where
  ok {d _ _} hd hk h := (hn d).ok hd hk h
  error {d _} hd hk h := (hn d).error hd hk h

end

/-! ### Items and entries -/

section

variable [DataEncoding] {w : JsonWriter} {k : ℕ} {f : Bytes → Except Error (Value × Bytes)}
  {m : Writing Unit}

/-- The text of each value read is written. -/
def WritesValues (k : ℕ) (m : Writing Unit) (f : Bytes → Except Error (Value × Bytes)) : Prop :=
  ∀ w, Writes w k (fun _ => k) m f (fun v => ((), w.write v.jsonText v.firstFloat))

theorem writeItemThen_writes (hm : WritesValues k m f) :
  Writes w k (fun _ => k) (writeItemThen m) f
    (fun v => ((), w.write (v.jsonText ++ [char ',']) v.firstFloat))
  := by
  have hwrite := (hm w).before (fun _ => List.prefix_append _ _) [char ',']
  simp only [JsonWriter.write_write, Option.or_none] at hwrite
  exact hwrite

theorem items_writes (hm : WritesValues k m f) (n : ℕ) :
  Writes w k (fun _ => k) (times (writeItemThen m) n) (decodeItems f n)
    (fun vs => (List.replicate vs.length (),
      w.write (withCommas (itemTexts vs)) (firstFloatItems vs)))
  := by
  induction n generalizing w with
  | zero =>
      apply writes_run
      rintro d rfl
      rw [itemTexts, firstFloatItems, withCommas, List.flatMap_nil, JsonWriter.write_none,
        List.append_nil]
      rfl
  | succ n ih =>
      have hitems : ∀ v, Writes (w.write (v.jsonText ++ [char ',']) v.firstFloat) k (fun _ => k)
          (times (writeItemThen m) n >>= fun as => pure (() :: as))
          (fun bs => decodeItems f n bs >>= fun p => .ok (v :: p.1, p.2))
          (fun vs => (List.replicate vs.length (),
            w.write (withCommas (itemTexts vs)) (firstFloatItems vs))) := by
        intro v
        apply ih.bind (n := fun as => pure (() :: as)) (h := fun vs bs => .ok (v :: vs, bs))
          (fun _ => List.prefix_append _ _)
        intro vs _
        apply writes_run
        rintro d rfl
        rw [itemTexts, firstFloatItems, withCommas_cons, JsonWriter.write_write, List.append_assoc]
        rfl
      exact (writeItemThen_writes hm).bind (n := fun _ => times (writeItemThen m) n >>= _)
        (h := fun v bs => decodeItems f n bs >>= fun p => .ok (v :: p.1, p.2))
        (fun _ => List.prefix_append _ _) fun v _ => hitems v

/-- An entry is written, and kept in the table. -/
theorem writeEntry_writes (hm : WritesValues k m f) (len i : ℕ) (table : MapTable) :
  Writes w k (fun _ => k) (writeEntry m len i table)
    (fun bs => mapKey table.previous bs >>= fun p => f p.2 >>= fun q => .ok ((p.1.1, q.1), q.2))
    (fun e => (table.record len i
        ⟨e.1, w.out.length, w.out.length + ((entryText e).length + 1)⟩ (putText e.1),
      w.write (entryText e ++ [char ',']) e.2.firstFloat))
  := by
  apply Writes.bind (h := fun key bs => f bs >>= fun q => .ok ((key.1, q.1), q.2))
    (readMapKeyUtf8_reads table.previous).writes (fun _ => List.prefix_refl _)
  rintro p ⟨bs, rest, hmap⟩
  obtain ⟨⟨key, encoded, rest⟩, hkey, hsame⟩ := Except.map_eq_ok.mp hmap
  cases hsame
  obtain ⟨-, rfl, -, -⟩ := readMapKey_ok hkey
  apply Writes.look
  intro d
  have hstr : (fun out => writeStr out key) = fun out => out ++ jsonString key :=
    funext fun out => writeStr_eq out key
  dsimp only
  rw [hstr]
  apply Writes.after
  apply Writes.after (t := [char ':'])
  apply Writes.bind (h := fun v bs => .ok ((key, v), bs)) (hm _)
    (fun _ => List.prefix_append _ _)
  intro v _
  apply writes_run
  rintro d rfl
  have hwritten : (((w.write (jsonString key) none).write [char ':'] none).write v.jsonText
      v.firstFloat).write [char ','] none
      = w.write (entryText (key, v) ++ [char ',']) v.firstFloat := by
    simp only [entryText, JsonWriter.write_write, Option.none_or, Option.or_none, List.append_assoc,
      List.cons_append, List.nil_append]
  have hstop : (w.write (entryText (key, v) ++ [char ',']) v.firstFloat).out.length
      = w.out.length + ((entryText (key, v)).length + 1) := by
    rw [JsonWriter.write, List.length_append, List.length_append, List.length_singleton]
  show (output (fun out => out ++ [char ',']) >>= fun _ => current >>= fun after =>
    pure (table.record len i ⟨key, w.out.length, after.1.out.length⟩ (putText key))) _ = _
  rw [bind_of_ok (output_append _ d), hwritten, ← hstop]
  rfl

/-- The last entries of a map are written, and kept in the table. -/
theorem writeEntriesFrom_writes (hm : WritesValues k m f) (len n i : ℕ) (table : MapTable) :
  Writes w k (fun _ => k) (writeEntriesFrom m len n i table) (decodeEntries f n table.previous)
    (fun entries => (MapTable.after len i w.out.length (entryTexts entries) table,
      w.write (withCommas ((entryTexts entries).map Prod.snd)) (firstFloatEntries entries)))
  := by
  induction n generalizing w i table with
  | zero =>
      apply writes_run
      rintro d rfl
      rw [entryTexts, firstFloatEntries, List.map_nil, withCommas, List.flatMap_nil,
        JsonWriter.write_none, List.append_nil]
      rfl
  | succ n ih =>
      have hrest : ∀ e : Bytes × Value,
          Writes (w.write (entryText e ++ [char ',']) e.2.firstFloat) k (fun _ => k)
            (writeEntriesFrom m len n (i + 1) (table.record len i
              ⟨e.1, w.out.length, w.out.length + ((entryText e).length + 1)⟩ (putText e.1)))
            (fun bs => decodeEntries f n (putText e.1) bs >>= fun p => .ok (e :: p.1, p.2))
            (fun entries => (MapTable.after len i w.out.length (entryTexts entries) table,
              w.write (withCommas ((entryTexts entries).map Prod.snd))
                (firstFloatEntries entries))) := by
        intro e
        apply (ih _ _).map
        intro entries
        have hstop : (w.write (entryText e ++ [char ',']) e.2.firstFloat).out.length
            = w.out.length + ((entryText e).length + 1) := by
          rw [JsonWriter.write, List.length_append, List.length_append, List.length_singleton]
        rw [entryTexts_cons, MapTable.after, hstop, firstFloatEntries, List.map_cons,
          withCommas_cons, JsonWriter.write_write, List.append_assoc]
        rfl
      have hentry := (writeEntry_writes (w := w) hm len i table).bind
        (n := fun table => writeEntriesFrom m len n (i + 1) table)
        (h := fun e bs => decodeEntries f n (putText e.1) bs >>= fun p => .ok (e :: p.1, p.2))
        (fun _ => List.prefix_append _ _) fun e _ => hrest e
      apply hentry.of_eq
      intro bs p
      rw [decodeEntries, mapKey]
      rcases hkey : Cbor.readMapKey table.previous bs with e | ⟨key, encoded, rest⟩
      · rfl
      · obtain ⟨-, rfl, -, -⟩ := readMapKey_ok hkey
        simp only [Except.map, Except.ok_bind]
        rcases f rest with e | ⟨v, rest⟩ <;> rfl

end

/-! ### Values -/

section

variable [DataEncoding] {w : JsonWriter} {k budget : ℕ}

variable {bs rest text : Bytes} {v : Value}

omit [DataEncoding] in
theorem decodeSimple_plain {additional : ℕ} (h : Cbor.decodeSimple additional bs = .ok (v, rest)) :
  (∃ b, v = .bool b) ∨ v = .null ∨ ∃ bits, v = .float bits
  := by
  rw [Cbor.decodeSimple] at h
  split_ifs at h
  · cases h
    exact .inl ⟨_, rfl⟩
  · cases h
    exact .inl ⟨_, rfl⟩
  · cases h
    exact .inr (.inl rfl)
  · obtain ⟨p, -, h⟩ := Except.bind_eq_ok.mp h
    dsimp only at h
    split_ifs at h
    cases h
    exact .inr (.inr ⟨_, rfl⟩)

theorem writeScalar_text (h : writeScalar w v = { w with out := w.out ++ text }) :
  writeScalar w v = w.write text none
  := by rw [h, JsonWriter.write_none]

theorem writeScalar_unsigned {n : ℕ} (h : n < 2 ^ 64) :
  writeScalar w (.unsigned n) = w.write (Value.unsigned n).jsonText none
  := writeScalar_text (by rw [writeScalar, writeU64_eq _ h, Value.jsonText])

theorem writeScalar_signed {i : ℤ} (h : i.natAbs < 2 ^ 64) :
  writeScalar w (.signed i) = w.write (Value.signed i).jsonText none
  := by
  apply writeScalar_text
  rw [writeScalar, writeU64_eq _ h, Value.jsonText, ← List.append_assoc]
  split_ifs
  · rfl
  · rw [List.append_nil]

/-- A value that is not text, an array or a map is written. -/
theorem writeScalar_eq {byte : UInt8}
    (hmajor : ¬(byte.toNat / 32 = 3 ∨ byte.toNat / 32 = 4 ∨ byte.toNat / 32 = 5))
    (h : valueAfter budget byte bs = .ok (v, rest)) :
  writeScalar w v = w.write v.jsonText v.firstFloat
  := by
  rw [valueAfter] at h
  split at h
  · obtain ⟨⟨n, bs'⟩, -, h⟩ := Except.bind_eq_ok.mp h
    dsimp only at h
    split_ifs at h
    cases h
    exact writeScalar_unsigned (by omega)
  · obtain ⟨⟨n, bs'⟩, -, h⟩ := Except.bind_eq_ok.mp h
    dsimp only at h
    split_ifs at h
    cases h
    exact writeScalar_signed (by omega)
  · obtain ⟨⟨b, bs'⟩, -, h⟩ := Except.bind_eq_ok.mp h
    cases h
    exact writeScalar_text (by simp [writeScalar, Value.jsonText])
  · omega
  · omega
  · omega
  · obtain ⟨⟨tag, bs'⟩, -, h⟩ := Except.bind_eq_ok.mp h
    dsimp only at h
    split_ifs at h
    obtain ⟨⟨c, bs'⟩, -, h⟩ := Except.bind_eq_ok.mp h
    cases h
    exact writeScalar_text (by simp [writeScalar, Value.jsonText])
  · obtain ⟨b, rfl⟩ | rfl | ⟨bits, rfl⟩ := decodeSimple_plain h
    · exact writeScalar_text rfl
    · exact writeScalar_text rfl
    · rw [writeScalar, JsonWriter.write, Value.jsonText, List.append_nil]
      rfl

omit [DataEncoding] in
theorem leave_eq (d : Decoder) :
  decoding leave (w, d) = (.ok (), w, { d with depth := d.depth - 1 })
  := rfl

omit [DataEncoding] in
/-- An array or map is closed. -/
theorem close_eq (parts : List Bytes) (bracket : UInt8) (d : Decoder) (float : Option ℕ) :
  close parts.length bracket (w.write (withCommas parts) float, d)
    = (.ok (), w.write (join (char ',') parts ++ [bracket]) float, d)
  := by
  rw [JsonWriter.write, JsonWriter.write, ← close_withCommas]
  rfl

theorem writeArray_writes {m : Writing Unit} (hm : WritesValues (k + 1) m (decodeValue budget))
    (len : ℕ) :
  Writes w (k + 1) (fun _ => k)
    (push (char '[') >>= fun _ => times (writeItemThen m) len >>= fun _ =>
      decoding leave >>= fun _ => close len (char ']'))
    (shallowRest budget (.array len)) (fun v => ((), w.write v.jsonText v.firstFloat))
  := by
  have hclose : ∀ vs : List Value, vs.length = len →
      Writes ((w.write [char '['] none).write (withCommas (itemTexts vs)) (firstFloatItems vs))
        (k + 1) (fun _ => k) (decoding leave >>= fun _ => close len (char ']'))
        (fun bs => .ok (Value.array vs, bs)) (fun v => ((), w.write v.jsonText v.firstFloat)) := by
    rintro vs rfl
    apply writes_run
    intro d hdepth
    rw [bind_of_ok (leave_eq d), ← length_itemTexts, close_eq, JsonWriter.write_write, hdepth]
    rfl
  have hcanonical : Canonical (decodeValue budget) := canonical_decodeValue budget
  apply Writes.after (t := [char '['])
  exact (items_writes hm len).bind (n := fun _ => decoding leave >>= fun _ => close len (char ']'))
    (h := fun vs bs => .ok (Value.array vs, bs)) (fun _ => List.prefix_append _ _)
    fun vs ⟨_, _, hitems⟩ => hclose vs (hcanonical.decodeItems hitems).1

omit [DataEncoding] in
/-- The entries of a map are rewritten if they are out of order. -/
theorem rewritten_eq (out : Bytes) (texts : List (Bytes × Bytes)) :
  let table := MapTable.after texts.length 0 out.length texts .empty
  (if table.sorted then out ++ withCommas (texts.map Prod.snd)
    else rewriteEntries (table.entries texts.length) (out ++ withCommas (texts.map Prod.snd)))
    = out ++ withCommas ((texts.insertionSort fun a b => a.1 ≤ b.1).map Prod.snd)
  := by
  intro table
  split_ifs with hsorted
  · obtain ⟨-, hchain⟩ := MapTable.after_sorted.mp hsorted
    have horder : texts.Pairwise fun a b => a.1 ≤ b.1 :=
      (List.pairwise_map.mp hchain.pairwise).imp le_of_lt
    rw [horder.insertionSort_eq]
  · rw [MapTable.after_entries, rewriteEntries_eq]

theorem writeMap_writes {m : Writing Unit} (hm : WritesValues (k + 1) m (decodeValue budget))
    (len : ℕ) :
  Writes w (k + 1) (fun _ => k)
    (push 0x7b >>= fun _ => writeEntriesFrom m len len 0 .empty >>= fun table =>
      decoding leave >>= fun _ =>
        if table.sorted then close len 0x7d
        else output (rewriteEntries (table.entries len)) >>= fun _ => close len 0x7d)
    (shallowRest budget (.map len)) (fun v => ((), w.write v.jsonText v.firstFloat))
  := by
  have hclose : ∀ entries : List (Bytes × Value), entries.length = len →
      let table := MapTable.after len 0 (w.write [0x7b] none).out.length (entryTexts entries) .empty
      Writes ((w.write [0x7b] none).write (withCommas ((entryTexts entries).map Prod.snd))
          (firstFloatEntries entries)) (k + 1) (fun _ => k)
        (decoding leave >>= fun _ =>
          if table.sorted then close len 0x7d
          else output (rewriteEntries (table.entries len)) >>= fun _ => close len 0x7d)
        (fun bs => .ok (Value.map entries, bs))
        (fun v => ((), w.write v.jsonText v.firstFloat)) := by
    rintro entries rfl table
    apply writes_run
    intro d hdepth
    have hrewritten := rewritten_eq (w.write [0x7b] none).out (entryTexts entries)
    rw [length_entryTexts] at hrewritten
    let parts := ((entryTexts entries).insertionSort fun a b => a.1 ≤ b.1).map Prod.snd
    have hlength : entries.length = parts.length := by
      rw [List.length_map, List.length_insertionSort, length_entryTexts]
    have hrewrite : ∀ d : Decoder,
        (if table.sorted then close entries.length 0x7d
          else output (rewriteEntries (table.entries entries.length)) >>= fun _ =>
            close entries.length 0x7d)
            ((w.write [0x7b] none).write (withCommas ((entryTexts entries).map Prod.snd))
              (firstFloatEntries entries), d)
          = close entries.length 0x7d
            ((w.write [0x7b] none).write (withCommas parts) (firstFloatEntries entries), d) := by
      intro d
      have hparts : (w.write [0x7b] none).write (withCommas parts) (firstFloatEntries entries)
          = ⟨(w.write [0x7b] none).out ++ withCommas parts,
            (w.write [0x7b] none).float.or (firstFloatEntries entries)⟩ := rfl
      rw [hparts, ← hrewritten]
      split_ifs <;> rfl
    rw [bind_of_ok (leave_eq d), hrewrite, hlength, close_eq, JsonWriter.write_write, hdepth]
    rfl
  have hcanonical : Canonical (decodeValue budget) := canonical_decodeValue budget
  apply Writes.after (t := [0x7b])
  exact (writeEntriesFrom_writes hm len len 0 .empty).bind
    (n := fun table => decoding leave >>= fun _ =>
      if table.sorted then close len 0x7d
      else output (rewriteEntries (table.entries len)) >>= fun _ => close len 0x7d)
    (h := fun entries bs => .ok (Value.map entries, bs)) (fun _ => List.prefix_append _ _)
    fun entries ⟨_, _, hentries⟩ => hclose entries
      ((@Canonical.decodeEntries _ hcanonical _ none) (fun p hp => by cases hp) hentries).1

omit [DataEncoding] in
theorem scalar_of_shallow
    (h : (Cbor.readByte bs >>= fun p => shallowAfter budget p.1 p.2) = .ok (.scalar v, rest)) :
  ∃ byte bs, ¬(byte.toNat / 32 = 3 ∨ byte.toNat / 32 = 4 ∨ byte.toNat / 32 = 5)
    ∧ valueAfter budget byte bs = .ok (v, rest)
  := by
  obtain ⟨⟨byte, bs⟩, -, h⟩ := Except.bind_eq_ok.mp h
  refine ⟨byte, bs, ?_⟩
  by_cases hmajor : byte.toNat / 32 = 3 ∨ byte.toNat / 32 = 4 ∨ byte.toNat / 32 = 5
  · exfalso
    rw [shallowAfter] at h
    rcases hmajor with hmajor | hmajor | hmajor
    · rw [hmajor] at h
      obtain ⟨p, -, h⟩ := Except.bind_eq_ok.mp h
      dsimp only at h
      split_ifs at h
      cases h
    · rw [hmajor] at h
      obtain ⟨p, -, h⟩ := Except.bind_eq_ok.mp h
      cases h
    · rw [hmajor] at h
      obtain ⟨p, -, h⟩ := Except.bind_eq_ok.mp h
      cases h
  · rw [shallowAfter_scalar hmajor] at h
    obtain ⟨p, hv, h⟩ := Except.bind_eq_ok.mp h
    cases h
    exact ⟨hmajor, hv⟩

/-- A value is written when the calls that write the values inside it do. -/
theorem writeValueBody_writes {m : Writing Unit} (hk : k + (budget + 1) = maxDepth)
    (hm : WritesValues (k + 1) m (decodeValue budget)) :
  WritesValues k (writeValueBody m) (decodeValue (budget + 1))
  := by
  intro w
  rw [show decodeValue (budget + 1) = _ from funext decodeValue_shallow]
  apply (decodeShallow_reads hk).writes.bind (fun _ => List.prefix_refl _)
  rintro shallow ⟨bs, rest, hshallow⟩
  cases shallow with
  | text s =>
      apply writes_run
      rintro d rfl
      show (Except.ok (), ({ w with out := writeStr w.out s } : JsonWriter), d) = _
      rw [writeStr_eq, ← JsonWriter.write_none]
      rfl
  | scalar v =>
      obtain ⟨byte, bs, hmajor, hv⟩ := scalar_of_shallow hshallow
      apply writes_run
      rintro d rfl
      show (Except.ok (), writeScalar w v, d) = _
      rw [writeScalar_eq hmajor hv]
  | array len => exact writeArray_writes hm len
  | map len => exact writeMap_writes hm len

theorem writeValueBody_limit {m : Writing Unit} (hk : maxDepth ≤ k) :
  WritesValues k (writeValueBody m) (decodeValue 0)
  := by
  intro w
  have hshallow : Reads k (Shallow.depth k) decodeShallow (fun _ => .error .maxDepth) :=
    decodeShallow_limit hk
  apply hshallow.writes.bind (h := fun _ _ => .error .maxDepth) (fun _ => List.prefix_refl _)
  rintro shallow ⟨bs, rest, h⟩
  cases h

/-- Whatever value is read, its text is written. -/
theorem writeJson_writes :
  WritesValues 0 writeJson (decodeValue maxDepth)
  := by
  have hrounds : ∀ n k, maxDepth < k + n →
      WritesValues k (writeValueBody^[n] (fail .maxDepth)) (decodeValue (maxDepth - k)) := by
    intro n
    induction n with
    | zero =>
        intro k hn w
        rw [Nat.sub_eq_zero_of_le (by omega)]
        exact writes_fail _ _
    | succ n ih =>
        intro k hn
        rw [Function.iterate_succ_apply']
        by_cases hk : maxDepth ≤ k
        · rw [Nat.sub_eq_zero_of_le hk]
          exact writeValueBody_limit hk
        · obtain ⟨budget, hbudget⟩ : ∃ budget, maxDepth - k = budget + 1 :=
            ⟨maxDepth - k - 1, by omega⟩
          have hinner := ih (k + 1) (by omega)
          rw [show maxDepth - (k + 1) = budget by omega] at hinner
          rw [hbudget]
          exact writeValueBody_writes (by omega) hinner
  exact hrounds (maxDepth + 1) 0 (by omega)

end

end Shrike.Cbor
