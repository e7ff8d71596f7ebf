import Shrike.Cbor.Reading

/-!
# The decoders agree

The four ways a decoder reads a value accept the same inputs with the same values, and stop at the
same position and at the depth they began at.
-/

namespace Shrike.Cbor

open Stateful Decoder

/-! ### One value -/

/-- A value after its first byte. -/
def valueAfter (budget : ℕ) (byte : UInt8) (bs : Bytes) : Except Error (Value × Bytes) :=
  let additional := byte.toNat % 32
  match byte.toNat / 32 with
  | 0 => do
      let (n, bs) ← Cbor.readArgument additional bs
      if n > 2 ^ 63 - 1 then .error .unsignedRange else .ok (.unsigned n, bs)
  | 1 => do
      let (n, bs) ← Cbor.readArgument additional bs
      if n ≤ 2 ^ 63 - 1 then .ok (.signed (-1 - n), bs) else .error .negativeRange
  | 2 => do
      let (b, bs) ← Cbor.readString additional bs
      .ok (.bytes b, bs)
  | 3 => do
      let (s, bs) ← Cbor.readString additional bs
      if Bytes.utf8 s then .ok (.text s, bs) else .error .utf8
  | 4 => do
      let (len, bs) ← Cbor.collectionLen additional .arrayLength bs
      let (items, bs) ← decodeItems (decodeValue budget) len bs
      .ok (.array items, bs)
  | 5 => do
      let (len, bs) ← Cbor.collectionLen additional .mapLength bs
      let (entries, bs) ← decodeEntries (decodeValue budget) len [] bs
      .ok (.map entries, bs)
  | 6 => do
      let (tag, bs) ← Cbor.readArgument additional bs
      if tag ≠ 42 then .error (.tag tag)
      else
        let (c, bs) ← Cbor.readTag42Body bs
        .ok (.cid c, bs)
  | _ => Cbor.decodeSimple additional bs

theorem decodeValue_succ (budget : ℕ) (bs : Bytes) :
  decodeValue (budget + 1) bs = Cbor.readByte bs >>= fun p => valueAfter budget p.1 p.2
  := rfl

/-- The items of an array from its additional information. -/
def arrayAfter (budget additional : ℕ) (bs : Bytes) : Except Error (Value × Bytes) := do
  let (len, bs) ← Cbor.collectionLen additional .arrayLength bs
  let (items, bs) ← decodeItems (decodeValue budget) len bs
  .ok (.array items, bs)

/-- The entries of a map from its additional information. -/
def mapAfter (budget additional : ℕ) (bs : Bytes) : Except Error (Value × Bytes) := do
  let (len, bs) ← Cbor.collectionLen additional .mapLength bs
  let (entries, bs) ← decodeEntries (decodeValue budget) len [] bs
  .ok (.map entries, bs)

section

variable {k budget : ℕ}

theorem decodeMajor_reads {readArray readMap : ℕ → Decoding Value}
    (harray : ∀ additional, Reads k (fun _ => k) (readArray additional) (arrayAfter budget additional))
    (hmap : ∀ additional, Reads k (fun _ => k) (readMap additional) (mapAfter budget additional))
    (byte : UInt8) :
  Reads k (fun _ => k) (decodeMajor readArray readMap byte) (valueAfter budget byte)
  := by
  show Reads k _ _ (fun bs => valueAfter budget byte bs)
  simp only [decodeMajor, valueAfter]
  rcases byte.toNat / 32 with _ | _ | _ | _ | _ | _ | _ | n
  · have hread := (readArgument_reads (k := k) (byte.toNat % 32)).bind fun n =>
      (reads_fail .unsignedRange .unsignedRange).ite (c := n > 2 ^ 63 - 1)
        (reads_same (Value.unsigned n))
    exact hread
  · have hread := (readArgument_reads (k := k) (byte.toNat % 32)).bind fun n =>
      (reads_same (Value.signed (-1 - n))).ite (c := n ≤ 2 ^ 63 - 1)
        (reads_fail .negativeRange .negativeRange)
    exact hread
  · have hread := (readString_reads (k := k) (byte.toNat % 32)).bind fun b =>
      reads_same (Value.bytes b)
    exact hread
  · have hread := (readString_reads (k := k) (byte.toNat % 32)).bind fun s =>
      (checkText_reads s).bind fun s => reads_same (Value.text s)
    apply hread.of_eq
    intro bs p
    rcases Cbor.readString (byte.toNat % 32) bs with e | ⟨s, rest⟩
    · rfl
    · simp only [Except.ok_bind]
      split_ifs <;> simp
  · exact harray _
  · exact hmap _
  · have hread := (readArgument_reads (k := k) (byte.toNat % 32)).bind fun tag =>
      (reads_fail (.tag tag) (.tag tag)).ite (c := tag ≠ 42)
        (readTag42Body_reads.bind fun c => reads_same (Value.cid c))
    exact hread
  · exact decodeSimple_reads _

variable {m : Decoding Value}

theorem decodeArray_reads
    (hm : Reads (k + 1) (fun _ => k + 1) m (decodeValue budget)) (additional : ℕ) :
  Reads k (fun _ => k) (decodeArray m additional) (arrayAfter budget additional)
  := by
  have hread := (collectionLen_reads (k := k) additional .arrayLength).bind fun len =>
    reads_deepen.bind fun _ => (hm.times len).bind fun items =>
      reads_leave.bind fun _ => reads_same (Value.array items)
  exact hread

theorem decodeMap_reads
    (hm : Reads (k + 1) (fun _ => k + 1) m (decodeValue budget)) (additional : ℕ) :
  Reads k (fun _ => k) (decodeMap m additional) (mapAfter budget additional)
  := by
  have hread := (reads_deepen (k := k)).bind fun _ =>
    (collectionLen_reads additional .mapLength).bind fun len =>
      (readEntries_reads readMapKey_reads hm len []).bind fun entries =>
        reads_leave.bind fun _ => reads_same (Value.map entries)
  exact hread

/-- The body reads a value when the calls to itself read the values inside it. -/
theorem decodeBody_reads (hk : k + (budget + 1) = maxDepth)
    (hm : Reads (k + 1) (fun _ => k + 1) m (decodeValue budget)) :
  Reads k (fun _ => k) (decodeBody m) (decodeValue (budget + 1))
  := by
  have hread := readByte_reads.bind
    (decodeMajor_reads (decodeArray_reads hm) (decodeMap_reads hm))
  apply hread.congr
  intro d hd hdepth
  rw [decodeBody, bind_of_ok (m := current) rfl, if_neg (by omega)]

/-- At the nesting limit nothing is read. -/
theorem decodeBody_limit (hk : maxDepth ≤ k) :
  Reads k (fun _ => k) (decodeBody m) (decodeValue 0)
  := by
  apply (reads_fail .maxDepth .maxDepth).congr
  intro d hd hdepth
  rw [decodeBody, bind_of_ok (m := current) rfl, if_pos (by omega)]

end

/-- Rounds of a body read a value when there are enough of them to reach the nesting limit. -/
theorem rounds_reads {body : Decoding Value → Decoding Value}
    (hbody : ∀ {k budget m}, k + (budget + 1) = maxDepth →
      Reads (k + 1) (fun _ => k + 1) m (decodeValue budget) →
        Reads k (fun _ => k) (body m) (decodeValue (budget + 1)))
    (hlimit : ∀ {k m}, maxDepth ≤ k → Reads k (fun _ => k) (body m) (decodeValue 0)) {n k : ℕ}
    (hn : maxDepth < k + n) :
  Reads k (fun _ => k) (body^[n] (fail .maxDepth)) (decodeValue (maxDepth - k))
  := by
  induction n generalizing k with
  | zero =>
      rw [Nat.sub_eq_zero_of_le (by omega)]
      exact reads_fail _ _
  | succ n ih =>
      rw [Function.iterate_succ_apply']
      by_cases hk : maxDepth ≤ k
      · rw [Nat.sub_eq_zero_of_le hk]
        exact hlimit hk
      · obtain ⟨budget, hbudget⟩ : ∃ budget, maxDepth - k = budget + 1 :=
          ⟨maxDepth - k - 1, by omega⟩
        rw [hbudget]
        apply hbody (by omega)
        have hinner := ih (k := k + 1) (by omega)
        rwa [show maxDepth - (k + 1) = budget by omega] at hinner

theorem decode_reads (k : ℕ) :
  Reads k (fun _ => k) Decoder.decode (decodeValue (maxDepth - k))
  := rounds_reads decodeBody_reads decodeBody_limit (by omega)

/-! ### A value in an arena -/

variable {bs prev rest : Bytes} {n major : ℕ} {f : Bytes → Except Error (Value × Bytes)}

theorem writeItem_ne_nil {v : Value} (h : writeItem v = .ok bs) :
  bs ≠ []
  := by
  cases v with
  | unsigned n =>
      cases h
      exact putHead_ne_nil 0 n
  | signed i =>
      cases h
      split_ifs
      · exact putHead_ne_nil _ _
      · exact putHead_ne_nil _ _
  | float bits =>
      rw [writeItem] at h
      split_ifs at h
      cases h
      exact List.cons_ne_nil _ _
  | bool | null | cid =>
      cases h
      exact List.cons_ne_nil _ _
  | text | bytes =>
      cases h
      exact List.append_ne_nil_of_left_ne_nil (putHead_ne_nil _ _) _
  | array | map =>
      obtain ⟨body, -, h⟩ := Except.bind_eq_ok.mp h
      cases h
      exact List.append_ne_nil_of_left_ne_nil (putHead_ne_nil _ _) _

/-- Reading a value takes a byte at least. -/
theorem decodeValue_lt {budget : ℕ} {v : Value} (h : decodeValue budget bs = .ok (v, rest)) :
  rest.length < bs.length
  := by
  obtain ⟨out, hwrite, rfl⟩ := canonical_decodeValue budget h
  have hpos := List.length_pos_iff.mpr (writeItem_ne_nil hwrite)
  rw [List.length_append]
  omega

/-- Items take a byte each at least. -/
theorem decodeItems_length (hf : ∀ {bs v rest}, f bs = .ok (v, rest) → rest.length < bs.length)
    {vs : List Value} (h : decodeItems f n bs = .ok (vs, rest)) :
  n ≤ bs.length
  := by
  induction n generalizing bs rest vs with
  | zero => omega
  | succ n ih =>
      obtain ⟨⟨v, middle⟩, hv, h⟩ := Except.bind_eq_ok.mp h
      obtain ⟨⟨vs', rest'⟩, hvs, h⟩ := Except.bind_eq_ok.mp h
      have hlt := hf hv
      have hle := ih hvs
      omega

/-- Entries take a byte each at least. -/
theorem decodeEntries_length
    (hf : ∀ {bs v rest}, f bs = .ok (v, rest) → rest.length < bs.length)
    {entries : List (Bytes × Value)}
    (h : decodeEntries f n prev bs = .ok (entries, rest)) :
  n ≤ bs.length
  := by
  induction n generalizing prev bs rest entries with
  | zero => omega
  | succ n ih =>
      obtain ⟨⟨key, encoded, middle⟩, hkey, h⟩ := Except.bind_eq_ok.mp h
      obtain ⟨⟨v, middle'⟩, hv, h⟩ := Except.bind_eq_ok.mp h
      obtain ⟨⟨entries', rest'⟩, hentries, h⟩ := Except.bind_eq_ok.mp h
      obtain ⟨-, -, hbytes, -⟩ := readMapKey_ok hkey
      have hlt := hf hv
      have hle := ih hentries
      rw [hbytes, List.length_append]
      omega

section

variable {k budget : ℕ}

theorem collectionLenBump_reads (additional : ℕ) (tooLong beyond : Error) :
  Reads k (fun _ => k) (collectionLenBump additional tooLong beyond) (fun bs =>
    Cbor.collectionLen additional tooLong bs >>= fun p =>
      if p.2.length < p.1 then .error beyond else .ok (p.1, p.2))
  := by
  have hremaining : ∀ len, Reads k (fun _ => k)
      (current >>= fun d => if d.remaining < len then fail beyond else pure len)
      (fun bs => if bs.length < len then .error beyond else .ok (len, bs)) := by
    intro len
    have hlen : ∀ d : Decoder, d.remaining = d.unread.length := by
      intro d
      rw [remaining, unread, List.length_drop]
    constructor
    · intro d a rest hd hk h
      split_ifs at h with hshort
      have hread := (reads_same len).ok hd hk h
      rw [bind_of_ok (m := current) rfl, hlen, if_neg hshort]
      exact hread
    · intro d e hd hk h
      split_ifs at h with hshort
      rw [bind_of_ok (m := current) rfl, hlen, if_pos hshort]
      exact ⟨_, _, rfl⟩
  exact (collectionLen_reads additional tooLong).bind hremaining

theorem decodeArrayBump_reads {m : Decoding Value}
    (hm : Reads k (fun _ => k) m (decodeValue budget)) (additional : ℕ) :
  Reads k (fun _ => k) (decodeArrayBump m additional) (arrayAfter budget additional)
  := by
  have hread := (collectionLenBump_reads (k := k) additional .arrayLength .arrayRemaining).bind
    fun len => (hm.times len).bind fun items => reads_same (Value.array items)
  apply hread.of_eq
  intro bs p
  rw [arrayAfter]
  rcases Cbor.collectionLen additional .arrayLength bs with e | ⟨len, rest⟩
  · rfl
  · simp only [Except.ok_bind]
    split_ifs with hshort
    · apply iff_of_false _ nofun
      intro h
      obtain ⟨⟨items, rest'⟩, hitems, -⟩ := Except.bind_eq_ok.mp h
      have hle := decodeItems_length decodeValue_lt hitems
      omega
    · rfl

theorem decodeMapBump_reads {m : Decoding Value}
    (hm : Reads k (fun _ => k) m (decodeValue budget)) (additional : ℕ) :
  Reads k (fun _ => k) (decodeMapBump m additional) (mapAfter budget additional)
  := by
  have hread := (collectionLenBump_reads (k := k) additional .mapLength .mapRemaining).bind
    fun len => (readEntries_reads readMapKeyBump_reads hm len []).bind
      fun entries => reads_same (Value.map entries)
  apply hread.of_eq
  intro bs p
  rw [mapAfter]
  rcases Cbor.collectionLen additional .mapLength bs with e | ⟨len, rest⟩
  · rfl
  · simp only [Except.ok_bind]
    split_ifs with hshort
    · apply iff_of_false _ nofun
      intro h
      obtain ⟨⟨entries, rest'⟩, hentries, -⟩ := Except.bind_eq_ok.mp h
      have hle := decodeEntries_length decodeValue_lt hentries
      omega
    · rfl

end

/-- Rounds of the body at a depth of its own read a value, whatever depth the decoder keeps. -/
theorem roundsBump_reads {n k : ℕ} (depth : ℕ) (hn : maxDepth < depth + n) :
  Reads k (fun _ => k) (decodeBumpBody^[n] (fun _ => fail .maxDepth) depth)
    (decodeValue (maxDepth - depth))
  := by
  induction n generalizing depth with
  | zero =>
      rw [Nat.sub_eq_zero_of_le (by omega)]
      exact reads_fail _ _
  | succ n ih =>
      rw [Function.iterate_succ_apply', decodeBumpBody]
      by_cases hdepth : maxDepth ≤ depth
      · rw [Nat.sub_eq_zero_of_le hdepth, if_pos hdepth]
        exact reads_fail _ _
      · obtain ⟨budget, hbudget⟩ : ∃ budget, maxDepth - depth = budget + 1 :=
          ⟨maxDepth - depth - 1, by omega⟩
        have hinner := ih (depth + 1) (by omega)
        rw [show maxDepth - (depth + 1) = budget by omega] at hinner
        rw [hbudget, if_neg hdepth]
        exact readByte_reads.bind
          (decodeMajor_reads (decodeArrayBump_reads hinner) (decodeMapBump_reads hinner))

theorem decodeBump_reads (k : ℕ) :
  Reads k (fun _ => k) decodeBump (decodeValue maxDepth)
  := roundsBump_reads 0 (by omega)

/-! ### The entries of a map -/

namespace Decoder.MapEntries

section

variable {it it' : MapEntries} {d d' : Decoder}

theorem collect_none (h : it.next d = (none, it', d')) :
  it.collect d = (.ok [], d')
  := by
  rw [collect]
  split
  all_goals
    rename_i heq
    rw [h] at heq
    cases heq
  rfl

theorem collect_error {e : Error} (h : it.next d = (some (.error e), it', d')) :
  it.collect d = (.error e, d')
  := by
  rw [collect]
  split
  all_goals
    rename_i heq
    rw [h] at heq
    cases heq
  rfl

theorem collect_some {entry : Bytes × Value} (h : it.next d = (some (.ok entry), it', d')) :
  it.collect d = match it'.collect d' with
    | (.ok entries, d) => (.ok (entry :: entries), d)
    | (.error e, d) => (.error e, d)
  := by
  rw [collect]
  split
  all_goals
    rename_i heq
    rw [h] at heq
    cases heq
  rfl

end

/-- Collecting entries is reading as many as remain. -/
theorem collect_eq (it : MapEntries) (d : Decoder) :
  it.collect d = readEntries Decoder.readMapKey Decoder.decode it.remaining it.previous d
  := by
  obtain ⟨parentDepth, n, previous⟩ := it
  induction n generalizing previous d with
  | zero =>
      apply collect_none
      rw [next, nextWith, if_pos rfl]
  | succ n ih =>
      rw [readEntries]
      rcases hkey : Decoder.readMapKey previous d with ⟨e | ⟨key, encoded⟩, d'⟩
      · rw [bind_of_error hkey]
        apply collect_error
        rw [next, nextWith, if_neg (Nat.succ_ne_zero n), hkey]
      · rw [bind_of_ok hkey]
        change _ = (Decoder.decode >>= fun v =>
          readEntries Decoder.readMapKey Decoder.decode n encoded >>= fun entries =>
            pure ((key, v) :: entries)) d'
        rcases hvalue : Decoder.decode d' with ⟨e | v, d''⟩
        · have hnext : next ⟨parentDepth, n + 1, previous⟩ d
              = (some (.error e), ⟨parentDepth, 0, encoded⟩, d'') := by
            rw [next, nextWith, if_neg (Nat.succ_ne_zero n), hkey]
            dsimp only
            rw [bind_of_error hvalue]
          rw [bind_of_error hvalue]
          exact collect_error hnext
        · have hnext : next ⟨parentDepth, n + 1, previous⟩ d
              = (some (.ok (key, v)), ⟨parentDepth, n, encoded⟩, d'') := by
            rw [next, nextWith, if_neg (Nat.succ_ne_zero n), hkey]
            dsimp only
            rw [bind_of_ok hvalue]
            rfl
          rw [bind_of_ok hvalue, collect_some hnext, ih d'' encoded]
          rcases hrest : readEntries Decoder.readMapKey Decoder.decode n encoded d''
            with ⟨e | entries, d'''⟩
          · rw [bind_of_error hrest]
          · rw [bind_of_ok hrest]
            rfl

end Decoder.MapEntries

/-- The entries of the map that a value is. -/
def Value.entries : Value × Bytes → Except Error (List (Bytes × Value) × Bytes)
  | (.map entries, rest) => .ok (entries, rest)
  | _ => .error .expectedMap

theorem putHead_major (hmajor : major < 8) (n : ℕ) :
  ∃ b arg, putHead major n = b :: arg ∧ b.toNat / 32 = major
  := by
  have hbyte : ∀ a, a < 32 → (UInt8.ofNat (major * 32 + a)).toNat / 32 = major := by
    intro a ha
    rw [UInt8.toNat_ofNat', Nat.mod_eq_of_lt (by omega)]
    omega
  rw [putHead]
  split_ifs
  · exact ⟨_, _, rfl, hbyte n (by omega)⟩
  · exact ⟨_, _, rfl, hbyte 24 (by omega)⟩
  · exact ⟨_, _, rfl, hbyte 25 (by omega)⟩
  · exact ⟨_, _, rfl, hbyte 26 (by omega)⟩
  · exact ⟨_, _, rfl, hbyte 27 (by omega)⟩

/-- A map begins with the byte of a map. -/
theorem major_of_map {budget : ℕ} {byte : UInt8} {entries : List (Bytes × Value)}
    (h : decodeValue budget (byte :: bs) = .ok (.map entries, rest)) :
  byte.toNat / 32 = 5
  := by
  obtain ⟨out, hwrite, hbytes⟩ := canonical_decodeValue budget h
  obtain ⟨body, -, hout⟩ := Except.bind_eq_ok.mp hwrite
  obtain ⟨b, arg, hput, hmajor⟩ := putHead_major (by omega : 5 < 8) entries.length
  cases hout
  rw [hput] at hbytes
  cases hbytes
  exact hmajor

section

variable {k budget : ℕ}

/-- What begins the reading of the entries of a map. -/
theorem mapEntries_reads (hk : k < maxDepth) :
  Reads k (fun _ => k + 1) mapEntries (fun bs => Cbor.readByte bs >>= fun p =>
    if p.1.toNat / 32 ≠ 5 then .error .expectedMap
    else Cbor.collectionLen (p.1.toNat % 32) .mapLength p.2 >>= fun q =>
      .ok (⟨k, q.1, []⟩, q.2))
  := by
  have hread := (readByte_reads (k := k)).bind fun byte =>
    (reads_fail .expectedMap .expectedMap).ite (c := byte.toNat / 32 ≠ 5)
      ((collectionLen_reads (byte.toNat % 32) .mapLength).bind fun len =>
        reads_deepen.bind fun _ => reads_same (MapEntries.mk k len []))
  apply hread.congr
  intro d hd hdepth
  rw [mapEntries, bind_of_ok (m := current) rfl, if_neg (by omega), hdepth]

theorem parentDepth_of_mapEntries {d d' : Decoder} {it : MapEntries}
    (h : mapEntries d = (.ok it, d')) :
  it.parentDepth = d.depth
  := by
  rw [mapEntries, bind_of_ok (m := current) rfl] at h
  split at h
  · cases h
  · obtain ⟨byte, d₁, -, h⟩ := bind_eq_ok.mp h
    split at h
    · cases h
    · obtain ⟨len, d₂, -, h⟩ := bind_eq_ok.mp h
      cases h
      rfl

/-- After the entries of a map the depth is the one before. -/
theorem Reads.restored {f : Bytes → Except Error (List (Bytes × Value) × Bytes)}
    (h : Reads k (fun _ => k + 1) (mapEntries >>= MapEntries.collect) f) :
  Reads k (fun _ => k) collectEntries f
  where
  ok {d entries rest} hd hk hf := by
    obtain ⟨hsuffix, heq⟩ := h.ok hd hk hf
    obtain ⟨it, d₁, hit, hcollect⟩ := bind_eq_ok.mp heq
    use hsuffix
    rw [collectEntries, hit]
    dsimp only
    rw [hcollect, parentDepth_of_mapEntries hit, hk]
    rfl
  error {d e} hd hk hf := by
    obtain ⟨e', d', heq⟩ := h.error hd hk hf
    rcases hit : mapEntries d with ⟨e'' | it, d₁⟩
    · exact ⟨e'', d₁, by rw [collectEntries, hit]⟩
    · have hcollect := (bind_of_ok (f := MapEntries.collect) hit).symm.trans heq
      refine ⟨e', { d' with depth := it.parentDepth }, ?_⟩
      rw [collectEntries, hit]
      dsimp only
      rw [hcollect]

/-- Reading all entries of a map is reading the map. -/
theorem collectEntries_reads (k : ℕ) :
  Reads k (fun _ => k) collectEntries (fun bs => decodeValue (maxDepth - k) bs >>= Value.entries)
  := by
  by_cases hk : maxDepth ≤ k
  · rw [Nat.sub_eq_zero_of_le hk]
    apply (reads_fail .maxDepth .maxDepth).congr
    intro d hd hdepth
    have hfail : mapEntries d = (.error .maxDepth, d) := by
      rw [mapEntries, bind_of_ok (m := current) rfl, if_pos (by omega)]
      rfl
    rw [collectEntries, hfail]
    rfl
  · obtain ⟨budget, hbudget⟩ : ∃ budget, maxDepth - k = budget + 1 :=
      ⟨maxDepth - k - 1, by omega⟩
    have hinner := decode_reads (k + 1)
    rw [show maxDepth - (k + 1) = budget by omega] at hinner
    have hcollect : ∀ it : MapEntries, Reads (k + 1) (fun _ => k + 1) it.collect
        (decodeEntries (decodeValue budget) it.remaining it.previous) := by
      intro it
      apply (readEntries_reads readMapKey_reads hinner it.remaining it.previous).congr
      intro d _ _
      exact it.collect_eq d
    apply ((mapEntries_reads (by omega)).bind hcollect).restored.of_eq
    intro bs p
    rw [hbudget]
    cases bs with
    | nil => exact iff_of_false nofun nofun
    | cons byte bs =>
        by_cases hmajor : byte.toNat / 32 = 5
        · have hmap : decodeValue (budget + 1) (byte :: bs) = mapAfter budget (byte.toNat % 32) bs := by
            rw [decodeValue_succ]
            simp only [Cbor.readByte, Except.ok_bind, valueAfter, hmajor]
            rfl
          rw [hmap, mapAfter]
          simp only [Cbor.readByte, Except.ok_bind, hmajor, ne_eq, not_true_eq_false, if_false]
          rcases Cbor.collectionLen (byte.toNat % 32) .mapLength bs with e | ⟨len, rest⟩
          · rfl
          · simp only [Except.ok_bind]
            rcases decodeEntries (decodeValue budget) len [] rest with e | q <;> rfl
        · apply iff_of_false
          · intro h
            obtain ⟨⟨v, rest⟩, hv, hentries⟩ := Except.bind_eq_ok.mp h
            cases v with
            | map entries => exact hmajor (major_of_map hv)
            | _ => cases hentries
          · simp [Cbor.readByte, hmajor]

end

/-! ### Level by level -/

/-- The depth after a value was read level by level: its items or entries are a level deeper. -/
def Shallow.depth (k : ℕ) : Shallow → ℕ
  | .array _ => k + 1
  | .map _ => k + 1
  | _ => k

/-- What a value is, up to what is inside it. -/
def shallowAfter (budget : ℕ) (byte : UInt8) (bs : Bytes) : Except Error (Shallow × Bytes) :=
  match byte.toNat / 32 with
  | 3 => do
      let (s, bs) ← Cbor.readString (byte.toNat % 32) bs
      if Bytes.utf8 s then .ok (.text s, bs) else .error .utf8
  | 4 => do
      let (len, bs) ← Cbor.collectionLen (byte.toNat % 32) .arrayLength bs
      .ok (.array len, bs)
  | 5 => do
      let (len, bs) ← Cbor.collectionLen (byte.toNat % 32) .mapLength bs
      .ok (.map len, bs)
  | _ => do
      let (v, bs) ← valueAfter budget byte bs
      .ok (.scalar v, bs)

/-- What is read may depend on the next byte. -/
theorem Reads.peek {α : Type} {k : ℕ} {k' : α → ℕ} {m : Decoding α}
    {f : Bytes → Except Error (α × Bytes)}
    (h : ∀ next : Option UInt8, ∃ n g, Reads k k' n g ∧
      ∀ d : Decoder, d.Inside → d.depth = k → d.buf[d.pos]? = next →
        m d = n d ∧ f d.unread = g d.unread) :
  Reads k k' m f
  where
  ok {d a rest} hd hk hf := by
    obtain ⟨n, g, hn, hsame⟩ := h d.buf[d.pos]?
    obtain ⟨hm, hfg⟩ := hsame d hd hk rfl
    rw [hm]
    rw [hfg] at hf
    exact hn.ok hd hk hf
  error {d e} hd hk hf := by
    obtain ⟨n, g, hn, hsame⟩ := h d.buf[d.pos]?
    obtain ⟨hm, hfg⟩ := hsame d hd hk rfl
    rw [hm]
    rw [hfg] at hf
    exact hn.error hd hk hf

section

variable {k budget : ℕ}

theorem enter_reads (additional : ℕ) (tooLong : Error) :
  Reads k (fun _ => k + 1) (enter additional tooLong) (Cbor.collectionLen additional tooLong)
  := by
  have hread := (collectionLen_reads (k := k) additional tooLong).bind fun len =>
    reads_deepen.bind fun _ => reads_same len
  apply hread.of_eq
  intro bs p
  rcases Cbor.collectionLen additional tooLong bs with e | q <;> rfl

/-- Text and containers are read up to what is inside them. -/
theorem shallowMajor_reads (budget : ℕ) {byte : UInt8}
    (hmajor : byte.toNat / 32 = 3 ∨ byte.toNat / 32 = 4 ∨ byte.toNat / 32 = 5) :
  Reads k (Shallow.depth k) (shallowMajor byte) (shallowAfter budget byte)
  := by
  show Reads k _ _ (fun bs => shallowAfter budget byte bs)
  simp only [shallowMajor, shallowAfter]
  rcases hmajor with hmajor | hmajor | hmajor
  · rw [hmajor]
    have hread := (readString_reads (k := k) (byte.toNat % 32)).bind fun s =>
      (checkText_reads s).bind fun s =>
        reads_pure (l := Shallow.depth k) (a := Shallow.text s) rfl
    simp only [checkUtf8_eq]
    apply hread.of_eq
    intro bs p
    rcases Cbor.readString (byte.toNat % 32) bs with e | ⟨s, rest⟩
    · rfl
    · simp only [Except.ok_bind]
      split_ifs <;> simp
  · rw [hmajor]
    have hread := (enter_reads (k := k) (byte.toNat % 32) .arrayLength).bind fun len =>
      reads_pure (l := Shallow.depth k) (a := Shallow.array len) rfl
    exact hread
  · rw [hmajor]
    have hread := (enter_reads (k := k) (byte.toNat % 32) .mapLength).bind fun len =>
      reads_pure (l := Shallow.depth k) (a := Shallow.map len) rfl
    exact hread

theorem shallowAfter_scalar {byte : UInt8}
    (hmajor : ¬(byte.toNat / 32 = 3 ∨ byte.toNat / 32 = 4 ∨ byte.toNat / 32 = 5)) (bs : Bytes) :
  shallowAfter budget byte bs = valueAfter budget byte bs >>= fun p => .ok (.scalar p.1, p.2)
  := by
  rw [shallowAfter]
  rcases hcase : byte.toNat / 32 with _ | _ | _ | _ | _ | _ | n
  case succ.succ.succ.zero => omega
  case succ.succ.succ.succ.zero => omega
  case succ.succ.succ.succ.succ.zero => omega
  all_goals rfl

/-- A value is read up to what is inside it. -/
theorem decodeShallow_reads (hk : k + (budget + 1) = maxDepth) :
  Reads k (Shallow.depth k) decodeShallow
    (fun bs => Cbor.readByte bs >>= fun p => shallowAfter budget p.1 p.2)
  := by
  have hdecode := decode_reads k
  rw [show maxDepth - k = budget + 1 by omega] at hdecode
  have hscalar := hdecode.bind fun v => reads_pure (l := Shallow.depth k) (a := Shallow.scalar v) rfl
  apply Reads.peek
  intro next
  cases next with
  | none =>
      refine ⟨_, _, hscalar, fun d hd hdepth hnext => ⟨?_, ?_⟩⟩
      · rw [decodeShallow, bind_of_ok (m := current) rfl, hnext]
      · rw [unread, List.drop_eq_nil_of_le (List.getElem?_eq_none_iff.mp hnext)]
        rfl
  | some byte =>
      have hunread : ∀ {d : Decoder}, d.buf[d.pos]? = some byte → ∃ bs, d.unread = byte :: bs := by
        intro d hnext
        obtain ⟨hlt, hget⟩ := List.getElem?_eq_some_iff.mp hnext
        exact ⟨_, by rw [unread, List.drop_eq_getElem_cons hlt, hget]⟩
      have hmajor : (0x60 ≤ byte ∧ byte ≤ 0xbf)
          ↔ byte.toNat / 32 = 3 ∨ byte.toNat / 32 = 4 ∨ byte.toNat / 32 = 5 := by
        rw [UInt8.le_iff_toNat_le, UInt8.le_iff_toNat_le]
        show 96 ≤ byte.toNat ∧ byte.toNat ≤ 191 ↔ _
        omega
      by_cases hrange : 0x60 ≤ byte ∧ byte ≤ 0xbf
      · have hread := (readByte_reads (k := k)).bind fun _ =>
          shallowMajor_reads budget (hmajor.mp hrange)
        refine ⟨_, _, hread, fun d hd hdepth hnext => ⟨?_, ?_⟩⟩
        · rw [decodeShallow, bind_of_ok (m := current) rfl, hnext]
          dsimp only
          rw [if_pos ⟨hrange.1, hrange.2, by omega⟩]
        · obtain ⟨bs, hbytes⟩ := hunread hnext
          rw [hbytes]
          rfl
      · refine ⟨_, _, hscalar, fun d hd hdepth hnext => ⟨?_, ?_⟩⟩
        · rw [decodeShallow, bind_of_ok (m := current) rfl, hnext]
          dsimp only
          rw [if_neg fun h => hrange ⟨h.1, h.2.1⟩]
        · obtain ⟨bs, hbytes⟩ := hunread hnext
          rw [hbytes, decodeValue_succ]
          simp only [Cbor.readByte, Except.ok_bind]
          exact shallowAfter_scalar (fun h => hrange (hmajor.mpr h)) bs

/-- What is inside a value that was read level by level. -/
def shallowRest (budget : ℕ) : Shallow → Bytes → Except Error (Value × Bytes)
  | .text s, bs => .ok (.text s, bs)
  | .scalar v, bs => .ok (v, bs)
  | .array len, bs => decodeItems (decodeValue budget) len bs >>= fun p => .ok (.array p.1, p.2)
  | .map len, bs => decodeEntries (decodeValue budget) len [] bs >>= fun p => .ok (.map p.1, p.2)

/-- A value is what it is up to what is inside it, with that. -/
theorem decodeValue_shallow (bs : Bytes) :
  decodeValue (budget + 1) bs
    = (Cbor.readByte bs >>= fun p => shallowAfter budget p.1 p.2) >>= fun p =>
      shallowRest budget p.1 p.2
  := by
  rw [decodeValue_succ]
  cases bs with
  | nil => rfl
  | cons byte bs =>
      simp only [Cbor.readByte, Except.ok_bind]
      by_cases hmajor : byte.toNat / 32 = 3 ∨ byte.toNat / 32 = 4 ∨ byte.toNat / 32 = 5
      · rw [valueAfter, shallowAfter]
        rcases hmajor with hmajor | hmajor | hmajor
        · rw [hmajor]
          rcases Cbor.readString (byte.toNat % 32) bs with e | ⟨s, rest⟩
          · rfl
          · simp only [Except.ok_bind]
            split_ifs <;> rfl
        · rw [hmajor]
          rcases Cbor.collectionLen (byte.toNat % 32) .arrayLength bs with e | q <;> rfl
        · rw [hmajor]
          rcases Cbor.collectionLen (byte.toNat % 32) .mapLength bs with e | q <;> rfl
      · rw [shallowAfter_scalar hmajor]
        rcases valueAfter budget byte bs with e | p <;> rfl

theorem traverseBody_reads {m : Decoding Value} (hk : k + (budget + 1) = maxDepth)
    (hm : Reads (k + 1) (fun _ => k + 1) m (decodeValue budget)) :
  Reads k (fun _ => k) (traverseBody m) (decodeValue (budget + 1))
  := by
  rw [show decodeValue (budget + 1) = _ from funext decodeValue_shallow]
  apply (decodeShallow_reads hk).bind
  intro shallow
  cases shallow with
  | text s => exact reads_same _
  | scalar v => exact reads_same _
  | array len =>
      have hread := (hm.times len).bind fun items =>
        reads_leave.bind fun _ => reads_same (Value.array items)
      exact hread
  | map len =>
      have hread := (readEntries_reads readMapKeyUtf8_reads hm len []).bind fun entries =>
        reads_leave.bind fun _ => reads_same (Value.map entries)
      exact hread

/-- At the nesting limit nothing is read, not even level by level. -/
theorem decodeShallow_limit {l : Shallow → ℕ} (hk : maxDepth ≤ k) :
  Reads k l decodeShallow (fun _ => .error .maxDepth)
  where
  ok _ _ h := by cases h
  error {d e} hd hdepth _ := by
    have hdecode := decode_reads k
    rw [Nat.sub_eq_zero_of_le hk] at hdecode
    obtain ⟨e', d', heq⟩ := hdecode.error hd hdepth rfl
    refine ⟨e', d', ?_⟩
    rw [decodeShallow, bind_of_ok (m := current) rfl]
    cases d.buf[d.pos]? with
    | none => exact bind_of_error heq
    | some byte =>
        dsimp only
        rw [if_neg (by omega)]
        exact bind_of_error heq

theorem traverseBody_limit {m : Decoding Value} (hk : maxDepth ≤ k) :
  Reads k (fun _ => k) (traverseBody m) (decodeValue 0)
  where
  ok _ _ h := by cases h
  error {d e} hd hdepth _ := by
    have hshallow := decodeShallow_limit (l := Shallow.depth k) hk
    obtain ⟨e', d', heq⟩ := hshallow.error hd hdepth rfl
    exact ⟨e', d', by rw [traverseBody, bind_of_error heq]⟩

end

theorem traverse_reads (k : ℕ) :
  Reads k (fun _ => k) traverse (decodeValue (maxDepth - k))
  := rounds_reads traverseBody_reads traverseBody_limit (by omega)

/-! ### Agreement -/

/-- Two readers of values that read the same values, and leave the decoder the same. -/
theorem Reads.agree {m m' : Decoding Value} {k : ℕ} {k' : Value → ℕ} (h : Reads k k' m f)
    (h' : Reads k k' m' f)
    {d d' : Decoder} {v : Value} (hd : d.Inside) (hk : d.depth = k) :
  m d = (.ok v, d') ↔ m' d = (.ok v, d')
  := by rw [h.eq_ok hd hk, h'.eq_ok hd hk]

section

variable {d d' : Decoder} {v : Value}

/-! A decoder whose position is not in the input, which no reading leads to, fails in every way. -/

theorem readByte_outside (hd : ¬d.Inside) :
  Decoder.readByte d = (.error .unexpectedEnd, d)
  := by
  rw [Decoder.readByte, List.getElem?_eq_none (Nat.le_of_not_le hd)]

theorem decode_outside (hd : ¬d.Inside) :
  ∃ e, Decoder.decode d = (.error e, d)
  := by
  rw [Decoder.decode, Function.iterate_succ_apply', decodeBody, bind_of_ok (m := current) rfl]
  split_ifs
  · exact ⟨_, rfl⟩
  · exact ⟨_, bind_of_error (readByte_outside hd)⟩

theorem decodeBump_outside (hd : ¬d.Inside) :
  ∃ e, decodeBump d = (.error e, d)
  := by
  rw [decodeBump, decodeBumpInner, Function.iterate_succ_apply', decodeBumpBody]
  split_ifs
  · exact ⟨_, rfl⟩
  · exact ⟨_, bind_of_error (readByte_outside hd)⟩

theorem collectEntries_outside (hd : ¬d.Inside) :
  ∃ e, collectEntries d = (.error e, d)
  := by
  have hentries : ∃ e, mapEntries d = (.error e, d) := by
    rw [mapEntries, bind_of_ok (m := current) rfl]
    split_ifs
    · exact ⟨_, rfl⟩
    · exact ⟨_, bind_of_error (readByte_outside hd)⟩
  obtain ⟨e, he⟩ := hentries
  exact ⟨e, by rw [collectEntries, he]⟩

theorem traverse_outside (hd : ¬d.Inside) :
  ∃ e, traverse d = (.error e, d)
  := by
  have hshallow : ∃ e, decodeShallow d = (.error e, d) := by
    obtain ⟨e, he⟩ := decode_outside hd
    rw [decodeShallow, bind_of_ok (m := current) rfl,
      List.getElem?_eq_none (Nat.le_of_not_le hd)]
    exact ⟨e, bind_of_error he⟩
  obtain ⟨e, he⟩ := hshallow
  rw [Decoder.traverse, Function.iterate_succ_apply', traverseBody]
  exact ⟨e, bind_of_error he⟩

/-- The entries of a map are all read exactly when the map is decoded. -/
theorem collectEntries_eq_ok (hd : d.Inside) {entries : List (Bytes × Value)} :
  collectEntries d = (.ok entries, d') ↔ Decoder.decode d = (.ok (.map entries), d')
  := by
  rw [(collectEntries_reads d.depth).eq_ok hd rfl, (decode_reads d.depth).eq_ok hd rfl]
  constructor
  · rintro ⟨rest, h, rfl⟩
    obtain ⟨⟨v, rest'⟩, hv, hentries⟩ := Except.bind_eq_ok.mp h
    cases v with
    | map entries' =>
        cases hentries
        exact ⟨rest, hv, rfl⟩
    | _ => cases hentries
  · rintro ⟨rest, h, rfl⟩
    exact ⟨rest, by rw [h]; rfl, rfl⟩

end

/-- From any state of a decoder, to traverse a value level by level and, from the outermost level, to
decode it into an arena, is to decode it, and so is to collect the entries if it is a map: with the
same value and leaving the decoder the same. The depth is then the one it was. -/
theorem decoders_agree (d d' : Decoder) (v : Value) :
  (traverse d = (.ok v, d') ↔ Decoder.decode d = (.ok v, d'))
    ∧ (d.depth = 0 → (decodeBump d = (.ok v, d') ↔ Decoder.decode d = (.ok v, d')))
    ∧ (∀ entries, collectEntries d = (.ok entries, d')
        ↔ Decoder.decode d = (.ok (.map entries), d'))
    ∧ (Decoder.decode d = (.ok v, d') → d'.depth = d.depth)
  := by
  by_cases hd : d.Inside
  · refine ⟨(traverse_reads d.depth).agree (decode_reads d.depth) hd rfl, ?_,
      fun entries => collectEntries_eq_ok hd, ?_⟩
    · intro hdepth
      have hdecode := decode_reads d.depth
      rw [hdepth] at hdecode
      exact (decodeBump_reads 0).agree hdecode hd hdepth
    · intro h
      obtain ⟨rest, -, rfl⟩ := ((decode_reads d.depth).eq_ok hd rfl).mp h
      rfl
  · obtain ⟨e, hdecode⟩ := decode_outside hd
    obtain ⟨e₁, hbump⟩ := decodeBump_outside hd
    obtain ⟨e₂, hentries⟩ := collectEntries_outside hd
    obtain ⟨e₃, htraverse⟩ := traverse_outside hd
    rw [hdecode, hbump, hentries, htraverse]
    refine ⟨iff_of_false nofun nofun, fun _ => iff_of_false nofun nofun,
      fun _ => iff_of_false nofun nofun, nofun⟩

end Shrike.Cbor
