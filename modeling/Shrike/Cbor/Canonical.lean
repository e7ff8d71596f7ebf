import Shrike.Cbor.Encode

/-!
# Only the canonical encoding decodes

What the decoder has read of a byte string, when it accepts it, is the encoding of the value
it returns.
-/

namespace Shrike.Cbor

open Except

/-! ### Heads and strings -/

variable {bs rest : Bytes}

variable {b : UInt8} {k n limit : ℕ}

theorem readByte_ok (h : readByte bs = .ok (b, rest)) :
  bs = b :: rest
  := by
  cases bs with
  | nil => cases h
  | cons c bs =>
      cases h
      rfl

theorem readSlice_ok {bs s rest : Bytes} (h : readSlice n bs = .ok (s, rest)) :
  s.length = n ∧ bs = s ++ rest
  := by
  rw [readSlice] at h
  split at h
  · cases h
  · rename_i hlen
    cases h
    rw [List.length_take, List.take_append_drop]
    exact ⟨by omega, rfl⟩

theorem readWide_ok (h : readWide k limit bs = .ok (n, rest)) :
  limit < n ∧ n < 256 ^ k ∧ bs = Bytes.be k n ++ rest
  := by
  rw [readWide] at h
  rw [bind_eq_ok] at h
  obtain ⟨⟨arg, bs'⟩, hslice, h⟩ := h
  obtain ⟨rfl, rfl⟩ := readSlice_ok hslice
  dsimp only at h
  split at h
  · cases h
  · rename_i hlimit
    cases h
    rw [be_ofBe]
    exact ⟨Nat.lt_of_not_le hlimit, ofBe_lt arg, rfl⟩

/-- The head of which the major type and the argument are read is the shortest one. -/
theorem readArgument_ok (h : readArgument (b.toNat % 32) bs = .ok (n, rest)) :
  n < 2 ^ 64 ∧ b :: bs = putHead (b.toNat / 32) n ++ rest
  := by
  have hbyte : ∀ a, b.toNat % 32 = a → UInt8.ofNat (b.toNat / 32 * 32 + a) = b := by
    intro a ha
    rw [← ha, Nat.div_add_mod', UInt8.ofNat_toNat]
  rw [readArgument] at h
  split at h
  · cases h
    rename_i hsmall
    use by omega
    rw [putHead, if_pos (by omega), hbyte _ rfl]
    rfl
  · have wide : ∀ a k limit, b.toNat % 32 = a → readWide k limit bs = .ok (n, rest) → k ≤ 8 →
        (limit < n → n < 256 ^ k →
          putHead (b.toNat / 32) n = UInt8.ofNat (b.toNat / 32 * 32 + a) :: Bytes.be k n) →
        n < 2 ^ 64 ∧ b :: bs = putHead (b.toNat / 32) n ++ rest := by
      intro a k limit ha hread hk hput
      obtain ⟨hlimit, hn, rfl⟩ := readWide_ok hread
      have hpow : 256 ^ k ≤ 256 ^ 8 := Nat.pow_le_pow_right (by omega) hk
      use by omega
      rw [hput hlimit hn, hbyte a ha]
      rfl
    split at h
    · apply wide 24 1 23 (by assumption) h (by omega)
      intro hlimit hn
      rw [putHead, if_neg (by omega), if_pos (by omega)]
    · split at h
      · apply wide 25 2 255 (by assumption) h (by omega)
        intro hlimit hn
        rw [putHead, if_neg (by omega), if_neg (by omega), if_pos (by omega)]
      · split at h
        · apply wide 26 4 65535 (by assumption) h (by omega)
          intro hlimit hn
          rw [putHead, if_neg (by omega), if_neg (by omega), if_neg (by omega), if_pos (by omega)]
        · split at h
          · apply wide 27 8 4294967295 (by assumption) h (by omega)
            intro hlimit hn
            rw [putHead, if_neg (by omega), if_neg (by omega), if_neg (by omega),
              if_neg (by omega)]
          · split at h <;> cases h

theorem readString_ok {bs s rest : Bytes} (h : readString (b.toNat % 32) bs = .ok (s, rest)) :
  s.length < 2 ^ 64 ∧ b :: bs = putHead (b.toNat / 32) s.length ++ s ++ rest
  := by
  rw [readString] at h
  rw [bind_eq_ok] at h
  obtain ⟨⟨len, bs'⟩, harg, h⟩ := h
  obtain ⟨hlen, heq⟩ := readArgument_ok harg
  obtain ⟨rfl, rfl⟩ := readSlice_ok h
  rw [List.append_assoc]
  exact ⟨hlen, heq⟩

theorem collectionLen_ok {e : Error} (h : collectionLen (b.toNat % 32) e bs = .ok (n, rest)) :
  b :: bs = putHead (b.toNat / 32) n ++ rest
  := by
  rw [collectionLen] at h
  rw [bind_eq_ok] at h
  obtain ⟨⟨len, bs'⟩, harg, h⟩ := h
  dsimp only at h
  split at h
  · cases h
  · cases h
    apply (readArgument_ok harg).2

/-! ### CIDs -/

/-- Only the binary form of a CID spells it. -/
theorem fromBytes_ok {c : Cid} (h : Cid.fromBytes bs = .ok c) :
  bs = c.toBytes
  := by
  rw [Cid.fromBytes.eq_def] at h
  split at h
  · cases h
  · split at h
    · split at h
      · cases h
      · split at h
        · cases h
        · split at h
          · cases h
          · split at h
            · rename_i version codec hashType hashSize hash hall hversion hcodec hhash hlen
              cases h
              rw [not_not] at hversion
              rw [not_or, not_not, not_not] at hhash
              obtain ⟨rfl, rfl⟩ := hhash
              rw [Cid.toBytes, hversion]
              by_cases hdrisl : codec = 0x71
              · rw [if_pos hdrisl, hdrisl]
                rfl
              · rw [if_neg hdrisl]
                have hraw : codec = 0x55 := by
                  by_contra hne
                  exact hcodec ⟨hdrisl, hne⟩
                rw [hraw]
                rfl
            · cases h
    · cases h

theorem readTag42Body_ok {c : Cid} (h : readTag42Body bs = .ok (c, rest)) :
  bs = 0x58 :: 0x25 :: c.toTag42Bytes ++ rest
  := by
  rw [readTag42Body] at h
  rw [bind_eq_ok] at h
  obtain ⟨⟨inner, bs'⟩, hbyte, h⟩ := h
  obtain rfl := readByte_ok hbyte
  dsimp only at h
  split at h
  · cases h
  · rename_i hmajor
    rw [not_not] at hmajor
    rw [bind_eq_ok] at h
    obtain ⟨⟨body, bs''⟩, hstring, h⟩ := h
    obtain ⟨-, heq⟩ := readString_ok hstring
    dsimp only at h
    split at h
    · rename_i c' hcid
      cases h
      have hbody : body = c.toTag42Bytes := by
        rw [Cid.fromTag42Bytes.eq_def] at hcid
        split at hcid
        · rw [fromBytes_ok hcid, Cid.toTag42Bytes]
        · cases hcid
      have hlen : c.toTag42Bytes.length = 37 := by simp [Cid.toTag42Bytes]
      rw [heq, hmajor, hbody, hlen]
      rfl
    · cases h

/-! ### Map keys -/

/-- Keys whose encodings are in order are in order. -/
theorem keyLt_of_putText {a b : Bytes} (ha : a.length < 2 ^ 64) (h : putText a < putText b) :
  keyLt a b = true
  := by
  by_contra hnot
  have hcase : a = b ∨ keyLt b a = true := by
    rw [keyLt] at hnot
    rw [keyLt]
    split at hnot
    · rename_i hlen
      right
      rw [if_pos (Ne.symm hlen)]
      simp only [decide_eq_true_eq] at hnot ⊢
      omega
    · rename_i hlen
      rw [if_neg (not_not.mpr (not_not.mp hlen).symm)]
      simp only [decide_eq_true_eq] at hnot ⊢
      rcases (not_lt.mp hnot).eq_or_lt with heq | hlt
      · exact .inl heq.symm
      · exact .inr hlt
  rcases hcase with rfl | hba
  · exact lt_irrefl _ h
  · exact lt_asymm h (putText_lt ha hba)

theorem readMapKey_ok {prev bs key encoded rest : Bytes}
    (h : readMapKey prev bs = .ok (key, encoded, rest)) :
  key.length < 2 ^ 64 ∧ encoded = putText key ∧ bs = putText key ++ rest
    ∧ (prev = [] ∨ prev < putText key)
  := by
  rw [readMapKey] at h
  rw [bind_eq_ok] at h
  obtain ⟨⟨byte, bs'⟩, hbyte, h⟩ := h
  obtain rfl := readByte_ok hbyte
  dsimp only at h
  split at h
  · cases h
  · rename_i hmajor
    rw [not_not] at hmajor
    rw [bind_eq_ok] at h
    obtain ⟨⟨key', bs''⟩, hstring, h⟩ := h
    obtain ⟨hlen, heq⟩ := readString_ok hstring
    rw [hmajor] at heq
    have htake : (byte :: bs').take ((byte :: bs').length - bs''.length) = putText key' := by
      rw [heq, List.length_append, Nat.add_sub_cancel, List.take_left]
      rfl
    dsimp only at h
    rw [htake] at h
    split at h
    · cases h
    · rename_i hnlt
      split at h
      · cases h
      · rename_i hne
        split at h
        · cases h
          refine ⟨hlen, rfl, heq, ?_⟩
          by_cases hprev : prev = []
          · exact .inl hprev
          · right
            have hle : prev ≤ putText key := not_lt.mp fun hlt => hnlt ⟨hprev, hlt⟩
            exact lt_of_le_of_ne hle fun hsame => hne ⟨hprev, hsame⟩
        · cases h

/-! ### Values -/

/-- A reader of values that has read the encoding of what it returns. -/
def Canonical (decode : Bytes → Except Error (Value × Bytes)) : Prop :=
  ∀ {bs rest v}, decode bs = .ok (v, rest) → ∃ out, writeItem v = .ok out ∧ bs = out ++ rest

theorem Canonical.decodeItems {decode : Bytes → Except Error (Value × Bytes)}
    (hdecode : Canonical decode) :
  ∀ {n : ℕ} {bs rest : Bytes} {items : List Value},
    decodeItems decode n bs = .ok (items, rest) →
    items.length = n ∧ ∃ out, writeItems items = .ok out ∧ bs = out ++ rest
  | 0, _, _, _, h => by
      cases h
      exact ⟨rfl, [], rfl, rfl⟩
  | n + 1, _, _, _, h => by
      rw [Cbor.decodeItems] at h
      rw [bind_eq_ok] at h
      obtain ⟨⟨v, bs'⟩, hv, h⟩ := h
      rw [bind_eq_ok] at h
      obtain ⟨⟨vs, bs''⟩, hvs, h⟩ := h
      cases h
      obtain ⟨head, hhead, rfl⟩ := hdecode hv
      obtain ⟨hlen, tail, htail, rfl⟩ := hdecode.decodeItems hvs
      refine ⟨by rw [List.length_cons, hlen], head ++ tail, ?_, (List.append_assoc _ _ _).symm⟩
      rw [writeItems, hhead, ok_bind, htail, ok_bind]

theorem Canonical.decodeEntries {decode : Bytes → Except Error (Value × Bytes)}
    (hdecode : Canonical decode) :
  ∀ {n : ℕ} {prev : Option Bytes} {bs rest : Bytes} {entries : List (Bytes × Value)},
    (∀ p ∈ prev, p.length < 2 ^ 64) →
    decodeEntries decode n (prev.elim [] putText) bs = .ok (entries, rest) →
    entries.length = n ∧ ∃ out, writeEntries prev entries = .ok out ∧ bs = out ++ rest
  | 0, _, _, _, _, _, h => by
      cases h
      exact ⟨rfl, [], rfl, rfl⟩
  | n + 1, prev, _, _, _, hprev, h => by
      rw [Cbor.decodeEntries] at h
      rw [bind_eq_ok] at h
      obtain ⟨⟨key, encoded, bs'⟩, hkey, h⟩ := h
      rw [bind_eq_ok] at h
      obtain ⟨⟨v, bs''⟩, hv, h⟩ := h
      rw [bind_eq_ok] at h
      obtain ⟨⟨entries', bs'''⟩, hentries, h⟩ := h
      cases h
      obtain ⟨hlen, rfl, rfl, hlt⟩ := readMapKey_ok hkey
      obtain ⟨head, hhead, rfl⟩ := hdecode hv
      obtain ⟨hcount, tail, htail, rfl⟩ := (@Canonical.decodeEntries _ hdecode _ (some key))
        (fun p hp => by cases hp; exact hlen) hentries
      have horder : prev.any (fun p => !keyLt p key) = false := by
        cases prev with
        | none => rfl
        | some p =>
            have hp := keyLt_of_putText (hprev p rfl)
              (hlt.resolve_left (List.append_ne_nil_of_left_ne_nil (putHead_ne_nil 3 _) _))
            simp [hp]
      refine ⟨by rw [List.length_cons, hcount], putText key ++ head ++ tail, ?_,
        by simp only [List.append_assoc]⟩
      rw [writeEntries, horder]
      simp only [Bool.false_eq_true, if_false, hhead, ok_bind, htail]

theorem decodeSimple_ok {v : Value} (hmajor : b.toNat / 32 = 7)
    (h : decodeSimple (b.toNat % 32) bs = .ok (v, rest)) :
  ∃ out, writeItem v = .ok out ∧ b :: bs = out ++ rest
  := by
  have hbyte : ∀ a, b.toNat % 32 = a → b = UInt8.ofNat (7 * 32 + a) := by
    intro a ha
    rw [← hmajor, ← ha, Nat.div_add_mod', UInt8.ofNat_toNat]
  rw [decodeSimple] at h
  split at h
  · rename_i ha
    cases h
    rw [hbyte _ ha]
    exact ⟨[0xf4], rfl, rfl⟩
  · split at h
    · rename_i ha
      cases h
      rw [hbyte _ ha]
      exact ⟨[0xf5], rfl, rfl⟩
    · split at h
      · rename_i ha
        cases h
        rw [hbyte _ ha]
        exact ⟨[0xf6], rfl, rfl⟩
      · split at h
        · cases h
        · split at h
          · cases h
          · split at h
            · rename_i ha
              rw [bind_eq_ok] at h
              obtain ⟨⟨arg, bs'⟩, hslice, h⟩ := h
              obtain ⟨hlen, rfl⟩ := readSlice_ok hslice
              dsimp only at h
              split at h
              · cases h
              · split at h
                · cases h
                · rename_i hfinite
                  cases h
                  rw [hbyte _ ha]
                  refine ⟨0xfb :: arg, ?_, rfl⟩
                  rw [Bool.not_eq_true, Bool.not_eq_false'] at hfinite
                  rw [writeItem, if_pos hfinite, ← hlen, be_ofBe]
            · split at h <;> cases h

/-- What the decoder has read is the encoding of the value it returns. -/
theorem canonical_decodeValue (budget : ℕ) :
  Canonical (decodeValue budget)
  := by
  induction budget with
  | zero =>
      intro bs rest v h
      cases h
  | succ budget ih =>
      intro bs rest v h
      rw [decodeValue] at h
      rw [bind_eq_ok] at h
      obtain ⟨⟨b, bs⟩, hbyte, h⟩ := h
      obtain rfl := readByte_ok hbyte
      dsimp only at h
      split at h
      · rename_i hmajor
        rw [bind_eq_ok] at h
        obtain ⟨⟨n, bs'⟩, harg, h⟩ := h
        obtain ⟨-, heq⟩ := readArgument_ok harg
        dsimp only at h
        split at h
        · cases h
        · cases h
          rw [hmajor] at heq
          exact ⟨_, rfl, heq⟩
      · rename_i hmajor
        rw [bind_eq_ok] at h
        obtain ⟨⟨n, bs'⟩, harg, h⟩ := h
        obtain ⟨-, heq⟩ := readArgument_ok harg
        dsimp only at h
        split at h
        · cases h
          rw [hmajor] at heq
          refine ⟨_, ?_, heq⟩
          rw [writeItem, if_neg (by omega)]
          congr 2
          omega
        · cases h
      · rename_i hmajor
        rw [bind_eq_ok] at h
        obtain ⟨⟨s, bs'⟩, hstring, h⟩ := h
        obtain ⟨-, heq⟩ := readString_ok hstring
        cases h
        rw [hmajor] at heq
        exact ⟨_, rfl, heq⟩
      · rename_i hmajor
        rw [bind_eq_ok] at h
        obtain ⟨⟨s, bs'⟩, hstring, h⟩ := h
        obtain ⟨-, heq⟩ := readString_ok hstring
        dsimp only at h
        split at h
        · cases h
          rw [hmajor] at heq
          exact ⟨_, rfl, heq⟩
        · cases h
      · rename_i hmajor
        rw [bind_eq_ok] at h
        obtain ⟨⟨len, bs'⟩, hlen, h⟩ := h
        rw [bind_eq_ok] at h
        obtain ⟨⟨items, bs''⟩, hitems, h⟩ := h
        cases h
        have heq := collectionLen_ok hlen
        obtain ⟨rfl, out, hout, rfl⟩ := ih.decodeItems hitems
        rw [hmajor, ← List.append_assoc] at heq
        refine ⟨_, ?_, heq⟩
        rw [writeItem, hout, ok_bind]
      · rename_i hmajor
        rw [bind_eq_ok] at h
        obtain ⟨⟨len, bs'⟩, hlen, h⟩ := h
        rw [bind_eq_ok] at h
        obtain ⟨⟨entries, bs''⟩, hentries, h⟩ := h
        cases h
        have heq := collectionLen_ok hlen
        obtain ⟨rfl, out, hout, rfl⟩ := (@Canonical.decodeEntries _ ih _ none)
          (fun p hp => by cases hp) hentries
        rw [hmajor, ← List.append_assoc] at heq
        refine ⟨_, ?_, heq⟩
        rw [writeItem, hout, ok_bind]
      · rename_i hmajor
        rw [bind_eq_ok] at h
        obtain ⟨⟨tag, bs'⟩, harg, h⟩ := h
        obtain ⟨-, heq⟩ := readArgument_ok harg
        dsimp only at h
        split at h
        · cases h
        · rename_i htag
          rw [bind_eq_ok] at h
          obtain ⟨⟨c, bs''⟩, hbody, h⟩ := h
          cases h
          rw [not_not] at htag
          rw [hmajor, htag, readTag42Body_ok hbody] at heq
          exact ⟨_, rfl, heq⟩
      · rename_i h0 h1 h2 h3 h4 h5 h6
        have hb := b.toNat_lt
        rw [imp_false] at h0 h1 h2 h3 h4 h5 h6
        apply decodeSimple_ok (by omega) h

/-- A byte string that decodes is the encoding of the value it decodes to. -/
theorem writeItem_of_decode {v : Value} (h : decode bs = .ok v) :
  writeItem v = .ok bs
  := by
  rw [decode, bind_eq_ok] at h
  obtain ⟨⟨v', rest⟩, hvalue, h⟩ := h
  obtain ⟨out, hout, rfl⟩ := canonical_decodeValue maxDepth hvalue
  dsimp only at h
  split at h
  · cases h
  · rename_i hrest
    cases h
    rw [not_not.mp hrest, List.append_nil]
    exact hout

/-- A byte string that decodes is what the encoder makes of the value, so no other byte
string decodes to the same value, and encoding the value again keeps the CID. -/
theorem encodeValue_of_decode {bs : Bytes} {v : Value} (h : decode bs = .ok v) :
  encodeValue v = .ok bs
    ∧ (∀ bs', decode bs' = .ok v → bs' = bs)
    ∧ ∀ [Hashing] codec out, encodeValue v = .ok out → Cid.compute codec out = Cid.compute codec bs
  := by
  have hencode : encodeValue v = .ok bs := by
    rw [encodeValue, writeItem_of_decode h]
  refine ⟨hencode, fun bs' h' => ?_, fun codec out hout => ?_⟩
  · have hsame := writeItem_of_decode h'
    rw [writeItem_of_decode h] at hsame
    apply (Except.ok.inj hsame).symm
  · rw [hencode] at hout
    rw [Except.ok.inj hout]

/-- A map with an integer and a list is encoded as it was read. -/
theorem sample_encodeValue_of_decode :
  encodeValue (.map [([0x61], .unsigned 24), ([0x62], .array [.null, .signed (-25)])])
    = .ok [0xa2, 0x61, 0x61, 0x18, 0x18, 0x61, 0x62, 0x82, 0xf6, 0x38, 0x18]
  := by
  apply (encodeValue_of_decode _).1
  rfl

end Shrike.Cbor
