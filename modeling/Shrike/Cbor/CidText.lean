import Shrike.Cbor.Canonical
import Shrike.Cbor.Link

/-!
# The text of a CID

The text form of a CID is read back strictly: there is one text for each CID.
-/

namespace Shrike.Cbor

open Bytes

/-- Base32 as it is read back. The decoder accepts the encoding of every byte string, and nothing
but the encoding of what it returns. -/
class Base32Decoding extends DataEncoding where
  /-- The byte string that a text is the base32 of, without padding. -/
  base32Decode : Bytes → Option Bytes
  base32Decode_base32 : ∀ data : Bytes, base32Decode (base32 data) = some data
  base32_of_decode : ∀ {text data : Bytes}, base32Decode text = some data → base32 data = text
  base32_chars : ∀ data : Bytes, ∀ b ∈ base32 data, isAsciiUppercase b ∨ isAsciiDigit b
  length_base32 : ∀ data : Bytes, (base32 data).length = (data.length * 8 + 4) / 5

/-- The ways a text can fail to be that of a CID. -/
inductive InvalidCidText where
  | missingPrefix
  | wrongLength
  | notLowercase
  | notBase32
  | binary (e : Cid.Invalid)

/-- The text of the error. -/
def InvalidCidText.message : InvalidCidText → String
  | .missingPrefix => "invalid CID: missing 'b' prefix"
  | .wrongLength => "invalid CID: wrong base32 length"
  | .notLowercase => "invalid CID: CID base32 must be lowercase"
  | .notBase32 => "invalid CID: invalid base32 encoding"
  | .binary .wrongLength => "invalid CID: wrong length"
  | .binary .version => "invalid CID: unsupported CID version"
  | .binary .codec => "invalid CID: unsupported codec"
  | .binary .hash => "invalid CID: unsupported hash"
  | .binary .missingPrefix => "invalid CID: missing tag 42 prefix"

/-- The upper case of an ASCII letter. -/
def toAsciiUppercase (b : UInt8) : UInt8 := if isAsciiLowercase b then b - 32 else b

/-- The CID that a text spells. -/
def Cid.fromStr [Base32Decoding] (s : Bytes) : Except InvalidCidText Cid :=
  match stripPrefix [char 'b'] s with
  | none => .error .missingPrefix
  | some rest =>
      if rest.length ≠ 58 then .error .wrongLength
      else if rest.any isAsciiUppercase then .error .notLowercase
      else match Base32Decoding.base32Decode (rest.map toAsciiUppercase) with
        | none => .error .notBase32
        | some bytes => (Cid.fromBytes bytes).mapError .binary

theorem isAsciiUppercase_toAsciiLowercase (b : UInt8) :
  isAsciiUppercase (toAsciiLowercase b) = false
  := by
  rw [toAsciiLowercase]
  split_ifs with h
  · simp only [isAsciiUppercase, Bool.and_eq_true, decide_eq_true_eq, UInt8.le_iff_toNat_le,
      UInt8.reduceToNat] at h
    rw [← Bool.not_eq_true]
    intro hupper
    simp only [isAsciiUppercase, Bool.and_eq_true, decide_eq_true_eq, UInt8.le_iff_toNat_le,
      UInt8.toNat_add, UInt8.reduceToNat] at hupper
    omega
  · exact Bool.not_eq_true _ ▸ h

theorem toAsciiUppercase_toAsciiLowercase {b : UInt8} (h : isAsciiUppercase b ∨ isAsciiDigit b) :
  toAsciiUppercase (toAsciiLowercase b) = b
  := by
  simp only [isAsciiUppercase, isAsciiDigit, Bool.and_eq_true, decide_eq_true_eq,
    UInt8.le_iff_toNat_le, UInt8.reduceToNat] at h
  rw [toAsciiUppercase, toAsciiLowercase]
  split_ifs with hupper hlower hlower
  · simp
  · simp only [isAsciiUppercase, isAsciiLowercase, Bool.and_eq_true, decide_eq_true_eq,
      UInt8.le_iff_toNat_le, UInt8.toNat_add, UInt8.reduceToNat] at hupper hlower
    omega
  · simp only [isAsciiLowercase, Bool.and_eq_true, decide_eq_true_eq, UInt8.le_iff_toNat_le,
      UInt8.reduceToNat] at hlower
    omega
  · rfl

theorem toAsciiLowercase_toAsciiUppercase {b : UInt8} (h : isAsciiUppercase b = false) :
  toAsciiLowercase (toAsciiUppercase b) = b
  := by
  rw [toAsciiUppercase]
  split_ifs with hlower
  · rw [toAsciiLowercase, if_pos]
    · simp
    · simp only [isAsciiLowercase, Bool.and_eq_true, decide_eq_true_eq, UInt8.le_iff_toNat_le,
        UInt8.reduceToNat] at hlower
      simp only [isAsciiUppercase, Bool.and_eq_true, decide_eq_true_eq, UInt8.le_iff_toNat_le,
        UInt8.reduceToNat]
      rw [UInt8.toNat_sub_of_le]
      · simp only [UInt8.reduceToNat]
        omega
      · rw [UInt8.le_iff_toNat_le]
        simp only [UInt8.reduceToNat]
        omega
  · rw [toAsciiLowercase, if_neg (by simp [h])]

section

variable [Base32Decoding]

/-- The text of a CID is read back as the CID. -/
theorem fromStr_cidToString (c : Cid) :
  Cid.fromStr (cidToString c) = .ok c
  := by
  have hstrip : stripPrefix [char 'b'] (cidToString c)
      = some ((DataEncoding.base32 c.toBytes).map toAsciiLowercase) := by
    rw [stripPrefix, if_pos (by simp [cidToString])]
    rfl
  have hupper : ((DataEncoding.base32 c.toBytes).map toAsciiLowercase).any isAsciiUppercase
      = false := by
    rw [List.any_map, List.any_eq_false]
    intro b _
    simp [isAsciiUppercase_toAsciiLowercase]
  have hmap : ((DataEncoding.base32 c.toBytes).map toAsciiLowercase).map toAsciiUppercase
      = DataEncoding.base32 c.toBytes := by
    rw [List.map_map]
    calc (DataEncoding.base32 c.toBytes).map (toAsciiUppercase ∘ toAsciiLowercase)
        = (DataEncoding.base32 c.toBytes).map id := by
          apply List.map_congr_left
          intro b hb
          exact toAsciiUppercase_toAsciiLowercase (Base32Decoding.base32_chars _ b hb)
      _ = _ := List.map_id _
  rw [Cid.fromStr, hstrip]
  dsimp only
  rw [if_neg (by simp [Base32Decoding.length_base32]), hupper, if_neg Bool.false_ne_true, hmap,
    Base32Decoding.base32Decode_base32]
  dsimp only
  rw [Cid.fromBytes_toBytes]
  rfl

/-- A text that is read as a CID is the text of the CID. -/
theorem cidToString_of_fromStr {s : Bytes} {c : Cid} (h : Cid.fromStr s = .ok c) :
  cidToString c = s
  := by
  rw [Cid.fromStr] at h
  cases hstrip : stripPrefix [char 'b'] s with
  | none =>
      rw [hstrip] at h
      cases h
  | some rest =>
      rw [hstrip] at h
      dsimp only at h
      split_ifs at h with hlength hupper
      cases hdecode : Base32Decoding.base32Decode (rest.map toAsciiUppercase) with
      | none =>
          rw [hdecode] at h
          cases h
      | some bytes =>
          rw [hdecode] at h
          cases hbytes : Cid.fromBytes bytes with
          | error e =>
              simp only [hbytes] at h
              cases h
          | ok c' =>
              simp only [hbytes] at h
              cases h
              have hrest : (rest.map toAsciiUppercase).map toAsciiLowercase = rest := by
                rw [List.map_map]
                calc rest.map (toAsciiLowercase ∘ toAsciiUppercase) = rest.map id := by
                      apply List.map_congr_left
                      intro b hb
                      apply toAsciiLowercase_toAsciiUppercase
                      rw [← Bool.not_eq_true]
                      intro hup
                      exact hupper (List.any_eq_true.mpr ⟨b, hb, hup⟩)
                  _ = rest := List.map_id _
              rw [cidToString, ← fromBytes_ok hbytes, Base32Decoding.base32_of_decode hdecode,
                hrest, stripPrefix_some hstrip]
              rfl

/-- The text of a CID is ASCII. -/
theorem cidToString_ascii (c : Cid) :
  IsAscii (cidToString c)
  := by
  intro b hb
  rcases List.mem_cons.mp hb with rfl | hb
  · decide
  · obtain ⟨b', hb', rfl⟩ := List.mem_map.mp hb
    have hchar := Base32Decoding.base32_chars _ b' hb'
    simp only [isAsciiUppercase, isAsciiDigit, Bool.and_eq_true, decide_eq_true_eq,
      UInt8.le_iff_toNat_le, UInt8.reduceToNat] at hchar
    rw [UInt8.lt_iff_toNat_lt, toAsciiLowercase]
    split_ifs with hupper
    · simp only [isAsciiUppercase, Bool.and_eq_true, decide_eq_true_eq, UInt8.le_iff_toNat_le,
        UInt8.reduceToNat] at hupper
      simp only [UInt8.toNat_add, UInt8.reduceToNat]
      omega
    · simp only [UInt8.reduceToNat]
      omega

theorem length_cidToString (c : Cid) :
  (cidToString c).length = 59
  := by simp [cidToString, Base32Decoding.length_base32]

end

/-! ### Base32 of the standard alphabet -/

/-- The digits of a number in a base that is a power of two, of which there are `n`, make up the
number. -/
theorem foldl_digits (k bits n : ℕ) (h : bits < 2 ^ (n * k)) :
  ((List.range n).map fun i => bits / 2 ^ ((n - 1 - i) * k) % 2 ^ k).foldl
    (fun acc digit => acc * 2 ^ k + digit) 0 = bits
  := by
  induction n generalizing bits with
  | zero =>
      rw [Nat.zero_mul, Nat.pow_zero, Nat.lt_one_iff] at h
      rw [h]
      rfl
  | succ n ih =>
      have hhigh : bits / 2 ^ k < 2 ^ (n * k) := by
        rw [Nat.div_lt_iff_lt_mul (by positivity), ← pow_add]
        rwa [Nat.succ_mul] at h
      have hdigits : (List.range n).map (fun i => bits / 2 ^ ((n + 1 - 1 - i) * k) % 2 ^ k)
          = (List.range n).map fun i => bits / 2 ^ k / 2 ^ ((n - 1 - i) * k) % 2 ^ k := by
        apply List.map_congr_left
        intro i hi
        have hlt := List.mem_range.mp hi
        rw [Nat.div_div_eq_div_mul, ← pow_add]
        congr 3
        rw [show n + 1 - 1 - i = (n - 1 - i) + 1 by omega]
        ring
      rw [List.range_succ, List.map_append, List.foldl_append, hdigits, ih _ hhigh]
      simp only [List.map_cons, List.map_nil, List.foldl_cons, List.foldl_nil]
      rw [show (n + 1 - 1 - n) * k = 0 by simp, Nat.pow_zero, Nat.div_one]
      exact Nat.div_add_mod' bits (2 ^ k)

theorem mapM_map_some {α β γ : Type} {l : List α} {f : α → β} {g : β → Option γ} {h : α → γ}
    (hl : ∀ a ∈ l, g (f a) = some (h a)) :
  (l.map f).mapM g = some (l.map h)
  := by
  induction l with
  | nil => rfl
  | cons a l ih =>
      rw [List.map_cons, List.mapM_cons, hl a List.mem_cons_self,
        ih fun b hb => hl b (List.mem_cons_of_mem a hb)]
      rfl

theorem padded_lt (data : Bytes) {bits : ℕ} (hbits : data.length * 8 ≤ bits) :
  ofBe data * 2 ^ (bits - data.length * 8) < 2 ^ bits
  := by
  calc ofBe data * 2 ^ (bits - data.length * 8)
      < 256 ^ data.length * 2 ^ (bits - data.length * 8) :=
        Nat.mul_lt_mul_of_pos_right (ofBe_lt data) (by positivity)
    _ = 2 ^ bits := by
        rw [show 256 = 2 ^ 8 by rfl, ← pow_mul, ← pow_add, Nat.mul_comm 8, Nat.add_sub_of_le hbits]

/-- The text of a byte string in an alphabet is decoded to the byte string. -/
theorem decodeBits_encodeBits {k : ℕ} {alphabet : Bytes} (hk : 0 < k) (hle : k ≤ 8)
    (halphabet : ∀ digit < 2 ^ k, alphabet.idxOf? (alphabet.getD digit 0) = some digit)
    (data : Bytes) :
  decodeBits k alphabet (encodeBits k alphabet data) = some data
  := by
  have hupper := Nat.div_mul_le_self (data.length * 8 + k - 1) k
  have hlower := Nat.lt_div_mul_add hk (a := data.length * 8 + k - 1)
  have hlength : (encodeBits k alphabet data).length = (data.length * 8 + k - 1) / k := by
    rw [encodeBits, List.length_map, List.length_range]
  generalize hchars : (data.length * 8 + k - 1) / k = chars at *
  have hbits := padded_lt data (by omega : data.length * 8 ≤ chars * k)
  have hdigits : (encodeBits k alphabet data).mapM (fun c => alphabet.idxOf? c)
      = some ((List.range chars).map fun i => ofBe data * 2 ^ (chars * k - data.length * 8)
        / 2 ^ ((chars - 1 - i) * k) % 2 ^ k) := by
    rw [encodeBits, hchars]
    apply mapM_map_some
    intro i _
    apply halphabet
    exact Nat.mod_lt _ (by positivity)
  rw [decodeBits, hdigits]
  show some (be ((encodeBits k alphabet data).length * k / 8) _) = _
  rw [foldl_digits k _ chars hbits, hlength]
  have hlen : chars * k / 8 = data.length := by omega
  rw [hlen, Nat.mul_div_cancel _ (by positivity), be_ofBe]

theorem base32Upper_idxOf :
  ∀ digit < 2 ^ 5, (ascii "ABCDEFGHIJKLMNOPQRSTUVWXYZ234567").idxOf?
    ((ascii "ABCDEFGHIJKLMNOPQRSTUVWXYZ234567").getD digit 0) = some digit
  := by decide

theorem base32Upper_chars :
  ∀ digit < 2 ^ 5,
    isAsciiUppercase ((ascii "ABCDEFGHIJKLMNOPQRSTUVWXYZ234567").getD digit 0) = true ∨
      isAsciiDigit ((ascii "ABCDEFGHIJKLMNOPQRSTUVWXYZ234567").getD digit 0) = true
  := by decide

/-- Base32 of the standard alphabet. -/
@[reducible]
def Base32Decoding.standard : Base32Decoding where
  toDataEncoding := DataEncoding.standard
  base32Decode text := do
    let data ← decodeBits 5 (ascii "ABCDEFGHIJKLMNOPQRSTUVWXYZ234567") text
    if encodeBits 5 (ascii "ABCDEFGHIJKLMNOPQRSTUVWXYZ234567") data = text then some data else none
  base32Decode_base32 data := by
    have hdecode := decodeBits_encodeBits (by decide) (by decide) base32Upper_idxOf data
    show (decodeBits 5 _ (encodeBits 5 _ data) >>= _) = _
    rw [hdecode]
    exact if_pos rfl
  base32_of_decode h := by
    obtain ⟨data, -, h⟩ := Option.bind_eq_some_iff.mp h
    split at h
    · cases h
      assumption
    · cases h
  base32_chars data b hb := by
    obtain ⟨i, -, rfl⟩ := List.mem_map.mp hb
    apply base32Upper_chars
    exact Nat.mod_lt _ (by positivity)
  length_base32 data := by
    show (encodeBits 5 _ data).length = _
    rw [encodeBits, List.length_map, List.length_range]
    rfl

end Shrike.Cbor
