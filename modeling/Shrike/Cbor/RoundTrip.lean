import Shrike.Cbor.Decode
import Shrike.Data.Result
import Mathlib.Tactic.NormNum
import Mathlib.Tactic.Positivity

/-!
# Decoding what was encoded

A value within the decoder's limits that `writeItem` encodes is read back from its
encoding, whatever follows it.
-/

namespace Shrike.Cbor

/-- A value the decoder accepts with `budget` levels of nesting left: its integers and
lengths are in range, its text is UTF-8, its collections are not too long. -/
def Value.Fits : ℕ → Value → Prop
  | 0, _ => False
  | _ + 1, .unsigned n => n ≤ 2 ^ 63 - 1
  | _ + 1, .signed i => i < 0 ∧ -(2 ^ 63) ≤ i
  | _ + 1, .float bits => bits < 2 ^ 64
  | _ + 1, .bool _ => True
  | _ + 1, .null => True
  | _ + 1, .text s => Bytes.utf8 s ∧ s.length < 2 ^ 64
  | _ + 1, .bytes b => b.length < 2 ^ 64
  | _ + 1, .cid _ => True
  | budget + 1, .array items => items.length ≤ maxCollectionLen ∧ ∀ v ∈ items, v.Fits budget
  | budget + 1, .map entries => entries.length ≤ maxCollectionLen ∧
      ∀ e ∈ entries, (Bytes.utf8 e.1 ∧ e.1.length < 2 ^ 64) ∧ e.2.Fits budget

/-! ### Heads -/

variable {k m n limit major budget : ℕ}

variable {s bs rest : Bytes}

theorem readSlice_append (h : bs.length = n) :
  readSlice n (bs ++ rest) = .ok (bs, rest)
  := by
  subst h
  rw [readSlice, if_neg (by simp), List.take_left, List.drop_left]

theorem readWide_be (rest : Bytes) (hlimit : limit < n) (hn : n < 256 ^ k) :
  readWide k limit (Bytes.be k n ++ rest) = .ok (n, rest)
  := by
  rw [readWide, readSlice_append (Bytes.length_be k n)]
  simp [bind, Except.bind, Bytes.ofBe_be hn, Nat.not_le.mpr hlimit]

/-- A head is a byte whose high bits are the major type, followed by bytes from which the
argument is read back. -/
theorem putHead_read (hmajor : major < 8) (hn : n < 2 ^ 64) :
  ∃ b arg, putHead major n = b :: arg ∧ b.toNat / 32 = major
    ∧ ∀ rest, readArgument (b.toNat % 32) (arg ++ rest) = .ok (n, rest)
  := by
  have hbyte : ∀ a, a < 32 → (UInt8.ofNat (major * 32 + a)).toNat = major * 32 + a := by
    intro a ha
    rw [UInt8.toNat_ofNat', Nat.mod_eq_of_lt (by omega)]
  have hdiv : ∀ a, a < 32 → (major * 32 + a) / 32 = major := by omega
  have hmod : ∀ a, a < 32 → (major * 32 + a) % 32 = a := by omega
  unfold putHead
  split
  · use UInt8.ofNat (major * 32 + n), [], rfl
    rw [hbyte n (by omega), hdiv n (by omega), hmod n (by omega)]
    use rfl
    intro rest
    rw [readArgument, if_pos (by omega)]
    rfl
  · have wide : ∀ a k limit, 23 < a → a < 28 → limit < n → n < 256 ^ k →
        (∀ bs, readArgument a bs = readWide k limit bs) →
        ∃ b arg, UInt8.ofNat (major * 32 + a) :: Bytes.be k n = b :: arg
          ∧ b.toNat / 32 = major
          ∧ ∀ rest, readArgument (b.toNat % 32) (arg ++ rest) = .ok (n, rest) := by
      intro a k limit hlo hhi hlimit hk hread
      use UInt8.ofNat (major * 32 + a), Bytes.be k n, rfl
      rw [hbyte a (by omega), hdiv a (by omega), hmod a (by omega)]
      use rfl
      intro rest
      rw [hread]
      apply readWide_be rest hlimit hk
    split
    · apply wide 24 1 23 <;> first | omega | (intro bs; rfl)
    · split
      · apply wide 25 2 255 <;> first | omega | (intro bs; rfl)
      · split
        · apply wide 26 4 65535 <;> first | omega | (intro bs; rfl)
        · apply wide 27 8 4294967295 <;> first | omega | (intro bs; rfl)

theorem putHead_ne_nil (major n : ℕ) :
  putHead major n ≠ []
  := by
  unfold putHead
  repeat' split
  all_goals simp

/-! ### The order of encoded keys -/

theorem be_mod (k j n : ℕ) (h : k ≤ j) :
  Bytes.be k (n % 256 ^ j) = Bytes.be k n
  := by
  induction k with
  | zero => rfl
  | succ k ih =>
      have hj : 256 ^ j = 256 ^ k * (256 * 256 ^ (j - (k + 1))) := by
        rw [← Nat.pow_succ', ← Nat.pow_add]
        congr 1
        omega
      rw [Bytes.be, Bytes.be, ih (by omega)]
      congr 1
      rw [hj, Nat.mod_mul_right_div_self]
      apply UInt8.toNat_inj.mp
      rw [UInt8.toNat_ofNat', UInt8.toNat_ofNat', Nat.mod_mul_right_mod]

theorem be_lt (h : n < m) (hm : m < 256 ^ k) (x y : Bytes) :
  Bytes.be k n ++ x < Bytes.be k m ++ y
  := by
  induction k generalizing n m with
  | zero => omega
  | succ k ih =>
      have hpos : 0 < 256 ^ k := by positivity
      have hdm : m / 256 ^ k < 256 := by
        apply Nat.div_lt_of_lt_mul
        rw [← Nat.pow_succ]
        apply hm
      have hle : n / 256 ^ k ≤ m / 256 ^ k := Nat.div_le_div_right h.le
      rw [Bytes.be, Bytes.be, List.cons_append, List.cons_append, List.cons_lt_cons_iff]
      rcases hle.lt_or_eq with hlt | heq
      · left
        rw [UInt8.lt_iff_toNat_lt, UInt8.toNat_ofNat', UInt8.toNat_ofNat',
          Nat.mod_eq_of_lt (by omega), Nat.mod_eq_of_lt hdm]
        apply hlt
      · right
        use by rw [heq]
        rw [← be_mod k k n le_rfl, ← be_mod k k m le_rfl]
        apply ih _ (Nat.mod_lt m hpos)
        have hn' := Nat.div_add_mod n (256 ^ k)
        have hm' := Nat.div_add_mod m (256 ^ k)
        rw [heq] at hn'
        omega

/-- A text string encodes before every longer one. -/
theorem putHead_lt (h : n < m) (hm : m < 2 ^ 64) (hmajor : major < 8) (x y : Bytes) :
  putHead major n ++ x < putHead major m ++ y
  := by
  have first : ∀ a b u v, a < b → b < 32 →
      UInt8.ofNat (major * 32 + a) :: u < UInt8.ofNat (major * 32 + b) :: v := by
    intro a b u v hab hb
    rw [List.cons_lt_cons_iff]
    left
    rw [UInt8.lt_iff_toNat_lt, UInt8.toNat_ofNat', UInt8.toNat_ofNat',
      Nat.mod_eq_of_lt (by omega), Nat.mod_eq_of_lt (by omega)]
    omega
  have rest : ∀ a k, m < 256 ^ k →
      UInt8.ofNat (major * 32 + a) :: (Bytes.be k n ++ x)
        < UInt8.ofNat (major * 32 + a) :: (Bytes.be k m ++ y) := by
    intro a k hk
    rw [List.cons_lt_cons_iff]
    right
    use rfl
    apply be_lt h hk
  unfold putHead
  repeat' split
  all_goals simp only [List.cons_append, List.nil_append]
  all_goals first
    | omega
    | (apply first <;> omega)
    | (apply rest; omega)

theorem append_lt_append_left {a b : Bytes} (l : Bytes) (h : a < b) :
  l ++ a < l ++ b
  := by
  induction l with
  | nil => apply h
  | cons c l ih =>
      rw [List.cons_append, List.cons_append, List.cons_lt_cons_iff]
      right
      use rfl

/-- The order of map keys is the order of their encodings. -/
theorem putText_lt {a b : Bytes} (hb : b.length < 2 ^ 64) (h : keyLt a b = true) :
  putText a < putText b
  := by
  rw [keyLt] at h
  split at h
  · apply putHead_lt (of_decide_eq_true h) hb (by omega)
  · rename_i hlen
    rw [putText, putText, not_not.mp hlen]
    apply append_lt_append_left _ (of_decide_eq_true h)

/-! ### Values -/

theorem readString_put {b : UInt8} {arg : Bytes}
    (harg : ∀ rest, readArgument (b.toNat % 32) (arg ++ rest) = .ok (s.length, rest)) :
  readString (b.toNat % 32) (arg ++ s ++ rest) = .ok (s, rest)
  := by
  rw [readString, List.append_assoc, harg]
  apply readSlice_append rfl

/-- A key that follows the one before it is read back with its encoding. -/
theorem readMapKey_putText {prev key : Bytes} (rest : Bytes) (hutf8 : Bytes.utf8 key = true)
    (hlen : key.length < 2 ^ 64) (hprev : prev = [] ∨ prev < putText key) :
  readMapKey prev (putText key ++ rest) = .ok (key, putText key, rest)
  := by
  obtain ⟨b, arg, hput, hmajor, harg⟩ := putHead_read (by omega : 3 < 8) hlen
  have htext : putText key = b :: (arg ++ key) := by
    rw [putText, hput]
    rfl
  have htake : List.take ((putText key ++ rest).length - rest.length) (putText key ++ rest)
      = putText key := by
    rw [List.length_append, Nat.add_sub_cancel, List.take_left]
  have hnlt : ¬ (prev ≠ [] ∧ putText key < prev) := by
    rintro ⟨hne, hlt⟩
    apply lt_asymm hlt (hprev.resolve_left hne)
  have hneq : ¬ (prev ≠ [] ∧ prev = putText key) := by
    rintro ⟨hne, heq⟩
    apply ne_of_lt (hprev.resolve_left hne) heq
  have hread : readByte (putText key ++ rest) = .ok (b, arg ++ key ++ rest) := by
    rw [htext]
    rfl
  rw [readMapKey, hread]
  simp only [bind, Except.bind, ne_eq, hmajor, not_true_eq_false, if_false,
    readString_put harg, htake, hutf8, if_true]
  rw [if_neg hnlt, if_neg hneq]

theorem decodeItems_put {decode : Bytes → Except Error (Value × Bytes)} :
  ∀ {items : List Value} {bs : Bytes} (rest : Bytes),
    (∀ v ∈ items, ∀ bs rest, writeItem v = .ok bs → decode (bs ++ rest) = .ok (v, rest)) →
    writeItems items = .ok bs → decodeItems decode items.length (bs ++ rest) = .ok (items, rest)
  | [], bs, rest, _, h => by
      obtain rfl := Except.ok.inj h
      rfl
  | v :: items, bs, rest, hdecode, h => by
      rw [writeItems] at h
      obtain ⟨head, hhead, h⟩ := Except.bind_eq_ok.mp h
      obtain ⟨tail, htail, h⟩ := Except.bind_eq_ok.mp h
      obtain rfl := Except.ok.inj h
      have hv := hdecode v List.mem_cons_self head (tail ++ rest) hhead
      have hvs := decodeItems_put rest
        (fun w hw => hdecode w (List.mem_cons_of_mem v hw)) htail
      rw [List.length_cons, decodeItems, List.append_assoc, hv, Except.ok_bind]
      simp only [hvs, Except.ok_bind]

theorem decodeEntries_put {decode : Bytes → Except Error (Value × Bytes)} :
  ∀ {entries : List (Bytes × Value)} {prev : Option Bytes} {bs : Bytes} (rest : Bytes),
    (∀ e ∈ entries, (Bytes.utf8 e.1 = true ∧ e.1.length < 2 ^ 64)
      ∧ ∀ bs rest, writeItem e.2 = .ok bs → decode (bs ++ rest) = .ok (e.2, rest)) →
    writeEntries prev entries = .ok bs →
    decodeEntries decode entries.length (prev.elim [] putText) (bs ++ rest)
      = .ok (entries, rest)
  | [], prev, bs, rest, _, h => by
      obtain rfl := Except.ok.inj h
      rfl
  | (key, v) :: entries, prev, bs, rest, hdecode, h => by
      obtain ⟨⟨hutf8, hlen⟩, hv⟩ := hdecode (key, v) List.mem_cons_self
      rw [writeEntries] at h
      split at h
      · cases h
      · rename_i hlt
        obtain ⟨head, hhead, h⟩ := Except.bind_eq_ok.mp h
        obtain ⟨tail, htail, h⟩ := Except.bind_eq_ok.mp h
        obtain rfl := Except.ok.inj h
        have hprev : prev.elim [] putText = [] ∨ prev.elim [] putText < putText key := by
          cases prev with
          | none =>
              left
              rfl
          | some p =>
              right
              apply putText_lt hlen
              simpa using hlt
        have hvs := decodeEntries_put rest
          (fun e he => hdecode e (List.mem_cons_of_mem (key, v) he)) htail
        rw [List.length_cons, decodeEntries, List.append_assoc, List.append_assoc,
          readMapKey_putText _ hutf8 hlen hprev, Except.ok_bind]
        simp only [hv head _ hhead, Except.ok_bind]
        simp only [Option.elim] at hvs
        simp only [hvs, Except.ok_bind]

/-- A value within the decoder's limits is read back from its encoding. -/
theorem decodeValue_writeItem {v : Value} (rest : Bytes)
    (hfits : v.Fits budget) (h : writeItem v = .ok bs) :
  decodeValue budget (bs ++ rest) = .ok (v, rest)
  := by
  induction budget generalizing v bs rest with
  | zero => cases hfits
  | succ budget ih =>
      cases v with
      | unsigned n =>
          obtain rfl := Except.ok.inj h
          have hn : n ≤ 2 ^ 63 - 1 := hfits
          obtain ⟨b, arg, hput, hmajor, harg⟩ := putHead_read (by omega : 0 < 8)
            (by omega : n < 2 ^ 64)
          simp only [hput, List.cons_append, decodeValue, readByte, Except.ok_bind, hmajor, harg]
          rw [if_neg (Nat.not_lt.mpr hn)]
      | signed i =>
          obtain ⟨hneg, hlow⟩ := hfits
          rw [writeItem, if_neg (by omega)] at h
          obtain rfl := Except.ok.inj h
          obtain ⟨b, arg, hput, hmajor, harg⟩ := putHead_read (by omega : 1 < 8)
            (by omega : (-1 - i).toNat < 2 ^ 64)
          simp only [hput, List.cons_append, decodeValue, readByte, Except.ok_bind, hmajor, harg]
          rw [if_pos (by omega)]
          congr 3
          omega
      | float bits =>
          have hbits : bits < 2 ^ 64 := hfits
          rw [writeItem] at h
          split at h
          · rename_i hfinite
            obtain rfl := Except.ok.inj h
            have hnan : isNan bits = false := by
              simp only [isFinite, isNan, decide_eq_true_eq, decide_eq_false_iff_not] at hfinite ⊢
              rintro ⟨hexp, -⟩
              apply hfinite hexp
            simp only [List.cons_append, decodeValue, readByte, Except.ok_bind]
            show decodeSimple 27 _ = _
            simp only [decodeSimple, Nat.reduceEqDiff, if_false, if_true,
              readSlice_append (Bytes.length_be 8 bits), Except.ok_bind,
              Bytes.ofBe_be (by omega : bits < 256 ^ 8), hnan, hfinite]
            rfl
          · cases h
      | bool b =>
          obtain rfl := Except.ok.inj h
          cases b <;> rfl
      | null =>
          obtain rfl := Except.ok.inj h
          rfl
      | text s =>
          obtain ⟨hutf8, hlen⟩ := hfits
          obtain rfl := Except.ok.inj h
          obtain ⟨b, arg, hput, hmajor, harg⟩ := putHead_read (by omega : 3 < 8) hlen
          simp only [putText, hput, List.cons_append, decodeValue, readByte, Except.ok_bind,
            hmajor, readString_put harg, hutf8, if_true]
      | bytes b =>
          have hlen : b.length < 2 ^ 64 := hfits
          obtain rfl := Except.ok.inj h
          obtain ⟨b, arg, hput, hmajor, harg⟩ := putHead_read (by omega : 2 < 8) hlen
          simp only [putBytes, hput, List.cons_append, decodeValue, readByte, Except.ok_bind,
            hmajor, readString_put harg]
      | cid c =>
          obtain rfl := Except.ok.inj h
          have hbody : readTag42Body (0x58 :: 0x25 :: c.toTag42Bytes ++ rest) = .ok (c, rest) := by
            have hlen : c.toTag42Bytes.length = 37 := by simp [Cid.toTag42Bytes]
            have harg : ∀ rest, readArgument (UInt8.toNat 0x58 % 32) ([0x25] ++ rest)
                = .ok (c.toTag42Bytes.length, rest) := by
              intro rest
              rw [hlen]
              rfl
            rw [readTag42Body, List.cons_append, readByte, Except.ok_bind]
            have hread := @readString_put _ rest _ _ harg
            simp only [List.cons_append, List.nil_append] at hread
            simp only [List.cons_append, UInt8.reduceToNat, Nat.reduceDiv, ne_eq,
              not_true_eq_false, if_false] at hread ⊢
            simp only [hread, Except.ok_bind, Cid.fromTag42Bytes_toTag42Bytes]
          simp only [putCid, List.cons_append] at hbody ⊢
          simp only [decodeValue, readByte, Except.ok_bind]
          have harg : readArgument 24 (0x2a :: 0x58 :: 0x25 :: (c.toTag42Bytes ++ rest))
              = .ok (42, 0x58 :: 0x25 :: (c.toTag42Bytes ++ rest)) := rfl
          simp only [UInt8.reduceToNat, Nat.reduceDiv, Nat.reduceMod, harg, Except.ok_bind, ne_eq,
            not_true_eq_false, if_false, hbody]
      | array items =>
          obtain ⟨hlen, hitems⟩ := hfits
          obtain ⟨body, hbody, h⟩ := Except.bind_eq_ok.mp h
          obtain rfl := Except.ok.inj h
          obtain ⟨b, arg, hput, hmajor, harg⟩ := putHead_read (by omega : 4 < 8)
            (by rw [maxCollectionLen] at hlen; omega : items.length < 2 ^ 64)
          have hread := decodeItems_put rest (fun v hv bs rest => ih rest (hitems v hv)) hbody
          simp only [hput, List.cons_append, decodeValue, readByte, Except.ok_bind, hmajor,
            collectionLen, List.append_assoc, harg, Nat.not_lt.mpr hlen, if_false, hread]
      | map entries =>
          obtain ⟨hlen, hentries⟩ := hfits
          obtain ⟨body, hbody, h⟩ := Except.bind_eq_ok.mp h
          obtain rfl := Except.ok.inj h
          obtain ⟨b, arg, hput, hmajor, harg⟩ := putHead_read (by omega : 5 < 8)
            (by rw [maxCollectionLen] at hlen; omega : entries.length < 2 ^ 64)
          have hread := decodeEntries_put rest (fun e he =>
            ⟨(hentries e he).1, fun bs rest => ih rest (hentries e he).2⟩) hbody
          simp only [Option.elim] at hread
          simp only [hput, List.cons_append, decodeValue, readByte, Except.ok_bind, hmajor,
            collectionLen, List.append_assoc, harg, Nat.not_lt.mpr hlen, if_false, hread]

/-- A value within the decoder's limits is what its encoding decodes to. -/
theorem decode_writeItem {v : Value} (hfits : v.Fits maxDepth) (h : writeItem v = .ok bs) :
  decode bs = .ok v
  := by
  have hread := decodeValue_writeItem [] hfits h
  rw [List.append_nil] at hread
  rw [decode, hread]
  rfl

end Shrike.Cbor
