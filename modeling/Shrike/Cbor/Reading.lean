import Shrike.Cbor.Canonical
import Shrike.Cbor.Decoder

/-!
# What a decoder reads

The functions of a decoder with its position and depth read what functions of the unread bytes do.
-/

namespace Shrike.Cbor

open Stateful

/-! ### Reading -/

namespace Decoder

/-- The bytes that are left. -/
def unread (d : Decoder) : Bytes := d.buf.drop d.pos

/-- The decoder at a depth with only some last bytes left. -/
def leaving (d : Decoder) (rest : Bytes) (depth : ℕ) : Decoder where
  buf := d.buf
  pos := d.buf.length - rest.length
  depth := depth

/-- Whether the position is in the input. -/
def Inside (d : Decoder) : Prop := d.pos ≤ d.buf.length

variable {d : Decoder} {rest rest' : Bytes} {k : ℕ}

theorem unread_leaving (h : rest <:+ d.unread) :
  (d.leaving rest k).unread = rest
  := (List.suffix_iff_eq_drop.mp (h.trans (List.drop_suffix _ _))).symm

theorem inside_leaving :
  (d.leaving rest k).Inside
  := Nat.sub_le _ _

theorem leaving_unread (h : d.Inside) :
  d.leaving d.unread d.depth = d
  := by
  obtain ⟨buf, pos, depth⟩ := d
  have hpos : pos ≤ buf.length := h
  rw [leaving, unread, List.length_drop, Nat.sub_sub_self hpos]

theorem length_unread (h : d.Inside) :
  d.pos + d.unread.length = d.buf.length
  := by
  rw [unread, List.length_drop]
  have hpos : d.pos ≤ d.buf.length := h
  omega

end Decoder

open Decoder

/-- From a depth, a decoder reads what a function of the unread bytes does and is then at the depth
that goes with the result. It fails when the function does. -/
structure Reads {α : Type} (k : ℕ) (k' : α → ℕ) (m : Decoding α)
    (f : Bytes → Except Error (α × Bytes)) : Prop where
  ok {d : Decoder} {a : α} {rest : Bytes} (hd : d.Inside) (hk : d.depth = k)
    (h : f d.unread = .ok (a, rest)) :
    rest <:+ d.unread ∧ m d = (.ok a, d.leaving rest (k' a))
  error {d : Decoder} {e : Error} (hd : d.Inside) (hk : d.depth = k)
    (h : f d.unread = .error e) :
    ∃ e' d', m d = (.error e', d')

section

variable {α β : Type} {k : ℕ} {k' : α → ℕ} {k'' : β → ℕ} {m m' : Decoding α}
  {f f' : Bytes → Except Error (α × Bytes)}

theorem reads_pure {l : α → ℕ} {a : α} (h : l a = k) :
  Reads k l (pure a) (fun bs => .ok (a, bs))
  where
  ok hd hk h' := by
    cases h'
    refine ⟨List.suffix_refl _, ?_⟩
    rw [h, ← hk, leaving_unread hd]
    rfl
  error _ _ h' := by cases h'

theorem reads_same (a : α) :
  Reads k (fun _ => k) (pure a) (fun bs => .ok (a, bs))
  := reads_pure rfl

theorem reads_fail (e e' : Error) :
  Reads k k' (fail e) (fun _ => .error e')
  where
  ok _ _ h := by cases h
  error _ _ _ := ⟨e, _, rfl⟩

/-- What is read next depends on what was read before. -/
theorem Reads.bind {n : α → Decoding β} {g : α → Bytes → Except Error (β × Bytes)}
    (hm : Reads k k' m f) (hn : ∀ a, Reads (k' a) k'' (n a) (g a)) :
  Reads k k'' (m >>= n) (fun bs => f bs >>= fun p => g p.1 p.2)
  where
  ok {d b rest} hd hk h := by
    obtain ⟨⟨a, middle⟩, hf, hg⟩ := Except.bind_eq_ok.mp h
    obtain ⟨hsuffix, heq⟩ := hm.ok hd hk hf
    have hunread := unread_leaving hsuffix (k := k' a)
    rw [← hunread] at hg
    obtain ⟨hsuffix', heq'⟩ := (hn a).ok inside_leaving rfl hg
    rw [hunread] at hsuffix'
    use hsuffix'.trans hsuffix
    rw [bind_of_ok heq, heq']
    rfl
  error {d e} hd hk h := by
    cases hf : f d.unread with
    | error e' =>
        obtain ⟨e', d', heq⟩ := hm.error hd hk hf
        exact ⟨e', d', bind_of_error heq⟩
    | ok p =>
        obtain ⟨a, middle⟩ := p
        obtain ⟨hsuffix, heq⟩ := hm.ok hd hk hf
        rw [hf] at h
        change g a middle = _ at h
        rw [← unread_leaving hsuffix (k := k' a)] at h
        obtain ⟨e', d', heq'⟩ := (hn a).error inside_leaving rfl h
        exact ⟨e', d', by rw [bind_of_ok heq, heq']⟩

theorem Reads.ite {c : Prop} [Decidable c] (hm : Reads k k' m f) (hm' : Reads k k' m' f') :
  Reads k k' (if c then m else m') (fun bs => if c then f bs else f' bs)
  := by
  split_ifs
  · exact hm
  · exact hm'

/-- Reading is about what happens at the depth only. -/
theorem Reads.congr (hm : Reads k k' m f)
    (h : ∀ d : Decoder, d.Inside → d.depth = k → m' d = m d) :
  Reads k k' m' f
  where
  ok hd hk hf := by
    rw [h _ hd hk]
    exact hm.ok hd hk hf
  error hd hk hf := by
    rw [h _ hd hk]
    exact hm.error hd hk hf

/-- Functions that read the same and fail on the same bytes. -/
theorem Reads.of_eq (hm : Reads k k' m f)
    (h : ∀ bs p, f' bs = .ok p ↔ f bs = .ok p) :
  Reads k k' m f'
  where
  ok hd hk hf := hm.ok hd hk ((h _ _).mp hf)
  error {d e} hd hk hf := by
    cases hsame : f d.unread with
    | error e' => exact hm.error hd hk hsame
    | ok p =>
        rw [(h _ _).mpr hsame] at hf
        cases hf

/-- A decoder that reads what a function does reads a value exactly when the function does. -/
theorem Reads.eq_ok (hm : Reads k k' m f) {d d' : Decoder} {a : α} (hd : d.Inside)
    (hk : d.depth = k) :
  m d = (.ok a, d') ↔ ∃ rest, f d.unread = .ok (a, rest) ∧ d' = d.leaving rest (k' a)
  := by
  constructor
  · intro h
    cases hf : f d.unread with
    | error e =>
        obtain ⟨e', d'', heq⟩ := hm.error hd hk hf
        rw [heq] at h
        cases h
    | ok p =>
        obtain ⟨a', rest⟩ := p
        obtain ⟨-, heq⟩ := hm.ok hd hk hf
        rw [heq] at h
        cases h
        exact ⟨rest, rfl, rfl⟩
  · rintro ⟨rest, hf, rfl⟩
    exact (hm.ok hd hk hf).2

/-- What a decoder reads a number of times. -/
theorem Reads.times {m : Decoding Value} {f : Bytes → Except Error (Value × Bytes)}
    (hm : Reads k (fun _ => k) m f) (n : ℕ) :
  Reads k (fun _ => k) (m.times n) (decodeItems f n)
  := by
  induction n with
  | zero => exact reads_same _
  | succ n ih => exact hm.bind fun v => ih.bind fun vs => reads_same _

theorem reads_deepen :
  Reads k (fun _ => k + 1) deepen (fun bs => .ok ((), bs))
  where
  ok {d a rest} hd hk h := by
    cases h
    refine ⟨List.suffix_refl _, ?_⟩
    have hsame := leaving_unread hd
    show (Except.ok (), { d with depth := d.depth + 1 }) = _
    rw [hk] at hsame ⊢
    conv_lhs => rw [← hsame]
    rfl
  error _ _ h := by cases h

theorem reads_leave :
  Reads (k + 1) (fun _ => k) leave (fun bs => .ok ((), bs))
  where
  ok {d a rest} hd hk h := by
    cases h
    refine ⟨List.suffix_refl _, ?_⟩
    have hsame := leaving_unread hd
    show (Except.ok (), { d with depth := d.depth - 1 }) = _
    rw [hk] at hsame ⊢
    conv_lhs => rw [← hsame]
    rfl
  error _ _ h := by cases h

end

/-! ### Bytes and arguments -/

section

variable {k : ℕ}

theorem readByte_reads :
  Reads k (fun _ => k) Decoder.readByte Cbor.readByte
  where
  ok {d b rest} hd hk h := by
    have hbytes := readByte_ok h
    have hlen := length_unread hd
    have hget : d.buf[d.pos]? = some b := by
      have hhead : d.unread[0]? = some b := by
        rw [hbytes]
        rfl
      rwa [unread, List.getElem?_drop, Nat.add_zero] at hhead
    refine ⟨⟨[b], hbytes.symm⟩, ?_⟩
    rw [hbytes, List.length_cons] at hlen
    rw [Decoder.readByte, hget]
    simp only [leaving, Prod.mk.injEq, true_and, Decoder.mk.injEq]
    omega
  error {d e} hd hk h := by
    have hlen := length_unread hd
    cases hbytes : d.unread with
    | cons b bs =>
        rw [hbytes] at h
        cases h
    | nil =>
        rw [hbytes, List.length_nil] at hlen
        rw [Decoder.readByte, List.getElem?_eq_none (by omega)]
        exact ⟨_, _, rfl⟩

theorem readSlice_reads (len : ℕ) :
  Reads k (fun _ => k) (Decoder.readSlice len) (Cbor.readSlice len)
  where
  ok {d s rest} hd hk h := by
    obtain ⟨hs, hbytes⟩ := readSlice_ok h
    have hlen := length_unread hd
    refine ⟨⟨s, hbytes.symm⟩, ?_⟩
    have htake : (d.buf.drop d.pos).take len = s := by
      show d.unread.take len = s
      rw [hbytes, ← hs, List.take_left]
    rw [hbytes, List.length_append, hs] at hlen
    rw [Decoder.readSlice, if_neg (by omega), htake]
    simp only [leaving, Prod.mk.injEq, true_and, Decoder.mk.injEq]
    omega
  error {d e} hd hk h := by
    have hlen := length_unread hd
    rw [Cbor.readSlice] at h
    split_ifs at h with hshort
    rw [Decoder.readSlice, if_pos (by omega)]
    exact ⟨_, _, rfl⟩

theorem readFixed_reads (n : ℕ) :
  Reads k (fun _ => k) (readFixed n)
    (fun bs => Cbor.readSlice n bs >>= fun p => .ok (Bytes.ofBe p.1, p.2))
  := by
  apply (readSlice_reads n).bind (g := fun arg bs => .ok (Bytes.ofBe arg, bs))
  exact fun arg => reads_same _

theorem readWide_reads (n limit : ℕ) :
  Reads k (fun _ => k) (Decoder.readWide n limit) (Cbor.readWide n limit)
  := by
  have hread := (readFixed_reads (k := k) n).bind
    (g := fun val bs => if val ≤ limit then .error (.nonMinimal val) else .ok (val, bs))
    fun val => (reads_fail (.nonMinimal val) _).ite (reads_same _)
  apply hread.of_eq
  intro bs p
  rw [Cbor.readWide]
  cases Cbor.readSlice n bs <;> rfl

theorem readArgument_reads (additional : ℕ) :
  Reads k (fun _ => k) (Decoder.readArgument additional) (Cbor.readArgument additional)
  := by
  have hbyte : Reads k (fun _ => k) (Decoder.readByte >>= fun val =>
      if val.toNat < 24 then fail (.nonMinimal val.toNat) else pure val.toNat)
      (Cbor.readWide 1 23) := by
    have hread := (readByte_reads (k := k)).bind
      (g := fun val bs =>
        if val.toNat < 24 then .error (.nonMinimal val.toNat) else .ok (val.toNat, bs))
      fun val => (reads_fail (.nonMinimal val.toNat) _).ite (reads_same _)
    apply hread.of_eq
    intro bs p
    cases bs with
    | nil => rfl
    | cons b bs =>
        have hval : Bytes.ofBe [b] = b.toNat := by simp [Bytes.ofBe, Bytes.ofBeFrom]
        rw [Cbor.readWide, Cbor.readSlice, if_neg (by simp)]
        simp only [Cbor.readByte, Except.ok_bind, List.take_succ_cons, List.take_zero, hval,
          List.drop_succ_cons, List.drop_zero, Nat.lt_succ_iff]
  apply (reads_same additional).ite
  apply hbyte.ite
  apply (readWide_reads 2 255).ite
  apply (readWide_reads 4 65535).ite
  apply (readWide_reads 8 4294967295).ite
  exact (reads_fail _ _).ite (reads_fail _ _)

theorem readString_reads (additional : ℕ) :
  Reads k (fun _ => k) (Decoder.readString additional) (Cbor.readString additional)
  := (readArgument_reads additional).bind readSlice_reads

theorem collectionLen_reads (additional : ℕ) (tooLong : Error) :
  Reads k (fun _ => k) (Decoder.collectionLen additional tooLong)
    (Cbor.collectionLen additional tooLong)
  := by
  apply (readArgument_reads additional).bind
    (g := fun len bs => if len > maxCollectionLen then .error tooLong else .ok (len, bs))
  exact fun len => (reads_fail _ _).ite (reads_same _)

/-- The link that the bytes of a tag are, before what follows them. -/
def tagged (body rest : Bytes) : Except Error (Cid × Bytes) :=
  match Cid.fromTag42Bytes body with
  | .ok c => .ok (c, rest)
  | .error e => .error (.cid e)

theorem readTag42Body_reads :
  Reads k (fun _ => k) Decoder.readTag42Body Cbor.readTag42Body
  := by
  apply (readByte_reads).bind (g := fun inner bs =>
    if inner.toNat / 32 ≠ 2 then .error .tagBody
    else Cbor.readString (inner.toNat % 32) bs >>= fun p => tagged p.1 p.2)
  intro inner
  apply (reads_fail _ _).ite
  apply (readString_reads _).bind (g := tagged)
  intro body
  unfold tagged
  cases Cid.fromTag42Bytes body with
  | ok c => exact reads_same _
  | error e => exact reads_fail _ _

theorem decodeSimple_reads (additional : ℕ) :
  Reads k (fun _ => k) (Decoder.decodeSimple additional) (Cbor.decodeSimple additional)
  := by
  have hfloat : Reads k (fun _ => k) (readFixed 8 >>= fun bits =>
      if isNan bits then fail .nan
      else if !isFinite bits then fail .infinity
      else pure (Value.float bits))
      (fun bs => Cbor.readSlice 8 bs >>= fun p =>
        if isNan (Bytes.ofBe p.1) then .error .nan
        else if !isFinite (Bytes.ofBe p.1) then .error .infinity
        else .ok (.float (Bytes.ofBe p.1), p.2)) := by
    have hread := (readFixed_reads (k := k) 8).bind
      (g := fun bits bs => if isNan bits then .error .nan
        else if !isFinite bits then .error .infinity
        else .ok (Value.float bits, bs))
      fun bits => (reads_fail .nan _).ite ((reads_fail .infinity _).ite
        (reads_same _))
    apply hread.of_eq
    intro bs p
    cases Cbor.readSlice 8 bs <;> rfl
  apply (reads_same _).ite
  apply (reads_same _).ite
  apply (reads_same _).ite
  apply (reads_fail _ _).ite
  apply (reads_fail _ _).ite
  apply hfloat.ite
  exact (reads_fail _ _).ite (reads_fail _ _)

theorem checkText_reads (bytes : Bytes) :
  Reads k (fun _ => k) (checkText bytes)
    (fun bs => if Bytes.utf8 bytes then .ok (bytes, bs) else .error .utf8)
  := (reads_same _).ite (reads_fail _ _)

/-- ASCII is UTF-8. -/
theorem checkUtf8_eq (bytes : Bytes) :
  checkUtf8 bytes = checkText bytes
  := by
  have hsame : (bytes.all (· < 0x80) = true ∨ Bytes.utf8 bytes = true)
      ↔ Bytes.utf8 bytes = true := by
    constructor
    · rintro (h | h)
      · apply Bytes.utf8_of_ascii
        simpa using h
      · exact h
    · exact Or.inr
  rw [checkUtf8, checkText]
  simp only [hsame]

end

/-! ### Map keys -/

section

variable {k : ℕ}

/-- What is read between two positions, and then something that depends on the bytes in between. -/
theorem Reads.spanning {α β : Type} {k' : α → ℕ} {k'' : β → ℕ} {m : Decoding α}
    {f : Bytes → Except Error (α × Bytes)} {n : α → Bytes → Decoding β}
    {g : α → Bytes → Bytes → Except Error (β × Bytes)} (hm : Reads k k' m f)
    (hn : ∀ a encoded, Reads (k' a) k'' (n a encoded) (g a encoded)) :
  Reads k k'' (current >>= fun start => m >>= fun a => current >>= fun after =>
      n a ((after.buf.take after.pos).drop start.pos))
    (fun bs => f bs >>= fun p => g p.1 (bs.take (bs.length - p.2.length)) p.2)
  := by
  have hspan : ∀ {d : Decoder} (rest : Bytes) (depth : ℕ), d.Inside →
      ((d.leaving rest depth).buf.take (d.leaving rest depth).pos).drop d.pos
        = d.unread.take (d.unread.length - rest.length) := by
    intro d rest depth hd
    have hlen := length_unread hd
    show (d.buf.take (d.buf.length - rest.length)).drop d.pos = _
    rw [unread, List.drop_take]
    congr 1
    rw [unread] at hlen
    omega
  constructor
  · intro d b rest hd hk h
    obtain ⟨⟨a, middle⟩, hf, hg⟩ := Except.bind_eq_ok.mp h
    obtain ⟨hsuffix, heq⟩ := hm.ok hd hk hf
    have hunread := unread_leaving hsuffix (k := k' a)
    have hg' : g a (d.unread.take (d.unread.length - middle.length)) (d.leaving middle (k' a)).unread
        = .ok (b, rest) := by
      rw [hunread]
      exact hg
    rw [← hspan middle (k' a) hd] at hg'
    obtain ⟨hsuffix', heq'⟩ := (hn a _).ok inside_leaving rfl hg'
    rw [hunread] at hsuffix'
    use hsuffix'.trans hsuffix
    rw [bind_of_ok (m := current) rfl, bind_of_ok heq, bind_of_ok (m := current) rfl, heq']
    rfl
  · intro d e hd hk h
    rw [bind_of_ok (m := current) rfl]
    cases hf : f d.unread with
    | error e' =>
        obtain ⟨e', d', heq⟩ := hm.error hd hk hf
        exact ⟨e', d', bind_of_error heq⟩
    | ok p =>
        obtain ⟨a, middle⟩ := p
        obtain ⟨hsuffix, heq⟩ := hm.ok hd hk hf
        rw [hf] at h
        have hg' : g a (d.unread.take (d.unread.length - middle.length))
            (d.leaving middle (k' a)).unread = .error e := by
          rw [unread_leaving hsuffix]
          exact h
        rw [← hspan middle (k' a) hd] at hg'
        obtain ⟨e', d', heq'⟩ := (hn a _).error inside_leaving rfl hg'
        exact ⟨e', d', by rw [bind_of_ok heq, bind_of_ok (m := current) rfl, heq']⟩

/-- The bytes of a map key, which is text. -/
def keyText (bs : Bytes) : Except Error (Bytes × Bytes) := do
  let (byte, bs) ← Cbor.readByte bs
  if byte.toNat / 32 ≠ 3 then .error .keyType else Cbor.readString (byte.toNat % 32) bs

theorem readKeyText_reads :
  Reads k (fun _ => k) readKeyText keyText
  := by
  apply readByte_reads.bind (g := fun byte bs =>
    if byte.toNat / 32 ≠ 3 then .error .keyType else Cbor.readString (byte.toNat % 32) bs)
  exact fun byte => (reads_fail _ _).ite (readString_reads _)

/-- A key whose encoding follows the encoding of the key before. -/
def orderedKey (prev key encoded bs : Bytes) : Except Error ((Bytes × Bytes) × Bytes) :=
  if prev ≠ [] ∧ encoded < prev then .error .keyOrder
  else if prev ≠ [] ∧ prev = encoded then .error .duplicateKey
  else .ok ((key, encoded), bs)

theorem orderedKey_reads (prev key encoded : Bytes) :
  Reads k (fun _ => k) (checkOrder prev encoded >>= fun _ => pure (key, encoded))
    (orderedKey prev key encoded)
  := by
  rw [checkOrder]
  by_cases horder : prev ≠ [] ∧ encoded < prev
  · rw [if_pos horder]
    apply (reads_fail .keyOrder .keyOrder).of_eq
    intro bs p
    rw [orderedKey, if_pos horder]
  · rw [if_neg horder]
    by_cases hsame : prev ≠ [] ∧ prev = encoded
    · rw [if_pos hsame]
      apply (reads_fail .duplicateKey .duplicateKey).of_eq
      intro bs p
      rw [orderedKey, if_neg horder, if_pos hsame]
    · rw [if_neg hsame]
      apply (reads_same (key, encoded)).of_eq
      intro bs p
      rw [orderedKey, if_neg horder, if_neg hsame]

/-- The key and its encoding, with the bytes after it. -/
def mapKey (prev bs : Bytes) : Except Error ((Bytes × Bytes) × Bytes) :=
  (Cbor.readMapKey prev bs).map fun p => ((p.1, p.2.1), p.2.2)

theorem mapKey_eq (prev bs : Bytes) :
  mapKey prev bs = keyText bs >>= fun p =>
    orderedKey prev p.1 (bs.take (bs.length - p.2.length)) p.2 >>= fun q =>
      if Bytes.utf8 p.1 then .ok q else .error .utf8
  := by
  rw [mapKey, Cbor.readMapKey, keyText]
  rcases Cbor.readByte bs with e | ⟨byte, bs'⟩
  · rfl
  · simp only [Except.ok_bind]
    split_ifs
    · rfl
    · rcases Cbor.readString (byte.toNat % 32) bs' with e | ⟨key, rest⟩
      · rfl
      · simp only [Except.ok_bind, orderedKey]
        split_ifs <;> rfl

theorem readMapKeyBytes_reads (prev : Bytes) :
  Reads k (fun _ => k) (readMapKeyBytes prev) (fun bs => keyText bs >>= fun p =>
    orderedKey prev p.1 (bs.take (bs.length - p.2.length)) p.2)
  := by
  apply readKeyText_reads.spanning
    (n := fun key encoded => checkOrder prev encoded >>= fun _ => pure (key, encoded))
  exact fun key encoded => orderedKey_reads prev key encoded

/-- The check of a key that was read. -/
theorem checkedKey_reads (key encoded : Bytes) :
  Reads k (fun _ => k) (checkText key >>= fun key => pure (key, encoded))
    (fun bs => if Bytes.utf8 key then .ok ((key, encoded), bs) else .error .utf8)
  := by
  rw [checkText]
  by_cases h : Bytes.utf8 key = true
  · simp only [if_pos h]
    exact reads_same _
  · simp only [if_neg h]
    exact reads_fail _ _

theorem readMapKey_reads (prev : Bytes) :
  Reads k (fun _ => k) (Decoder.readMapKey prev) (mapKey prev)
  := by
  have hread := (readMapKeyBytes_reads (k := k) prev).bind
    fun q => checkedKey_reads q.1 q.2
  apply hread.of_eq
  intro bs p
  rw [mapKey_eq]
  rcases keyText bs with e | ⟨key, rest⟩
  · rfl
  · simp only [Except.ok_bind, orderedKey]
    split_ifs <;> simp [*]

theorem readMapKeyUtf8_reads (prev : Bytes) :
  Reads k (fun _ => k) (readMapKeyUtf8 prev) (mapKey prev)
  := by
  have hsame : readMapKeyUtf8 prev = Decoder.readMapKey prev := by
    rw [readMapKeyUtf8, Decoder.readMapKey]
    simp only [checkUtf8_eq]
  rw [hsame]
  exact readMapKey_reads prev

theorem readMapKeyBump_reads (prev : Bytes) :
  Reads k (fun _ => k) (readMapKeyBump prev) (mapKey prev)
  := by
  have hread := ((readKeyText_reads (k := k)).bind fun key => checkText_reads key).spanning
    fun key encoded => orderedKey_reads prev key encoded
  have hassoc : readMapKeyBump prev = current >>= fun start =>
      (readKeyText >>= checkText) >>= fun key => current >>= fun after =>
        checkOrder prev ((after.buf.take after.pos).drop start.pos) >>= fun _ =>
          pure (key, (after.buf.take after.pos).drop start.pos) := by
    simp only [bind_assoc]
    rfl
  rw [hassoc]
  apply hread.of_eq
  intro bs p
  rw [mapKey_eq]
  rcases keyText bs with e | ⟨key, rest⟩
  · rfl
  · simp only [Except.ok_bind]
    by_cases h : Bytes.utf8 key = true
    · simp only [if_pos h, Except.ok_bind]
      rcases orderedKey prev key (bs.take (bs.length - rest.length)) rest with e | q <;> rfl
    · simp only [if_neg h, Except.error_bind]
      rcases orderedKey prev key (bs.take (bs.length - rest.length)) rest with e | q
      · exact iff_of_false nofun nofun
      · exact iff_of_false nofun nofun

/-- The entries of a map, whose keys and values are read alike. -/
theorem readEntries_reads {readKey : Bytes → Decoding (Bytes × Bytes)} {m : Decoding Value}
    {f : Bytes → Except Error (Value × Bytes)}
    (hkey : ∀ prev, Reads k (fun _ => k) (readKey prev) (mapKey prev))
    (hm : Reads k (fun _ => k) m f) (n : ℕ) (prev : Bytes) :
  Reads k (fun _ => k) (readEntries readKey m n prev) (decodeEntries f n prev)
  := by
  induction n generalizing prev with
  | zero => exact reads_same _
  | succ n ih =>
      have hread := (hkey prev).bind fun q => hm.bind fun v => (ih q.2).bind
        (g := fun entries bs => .ok ((q.1, v) :: entries, bs)) fun entries => reads_same _
      apply hread.of_eq
      intro bs p
      rw [decodeEntries, mapKey]
      rcases Cbor.readMapKey prev bs with e | ⟨key, encoded, rest⟩ <;> rfl

end

end Shrike.Cbor
