import Shrike.Data.JsonText
import Shrike.Data.Words

/-!
# Writing numbers and strings as JSON

The decimal of a number, and a string with its escapes, which are searched for in words of eight
bytes.
-/

namespace Shrike.Cbor

open Bytes

/-! ### Numbers -/

/-- The digits of a number put before others, in as many slots as are left. -/
def putDigits : ℕ → ℕ → Bytes → Bytes
  | 0, _, digits => digits
  | slots + 1, n, digits =>
      let digits := UInt8.ofNat (48 + n % 10) :: digits
      if n / 10 = 0 then digits else putDigits slots (n / 10) digits

/-- Write a number. -/
def writeU64 (out : Bytes) (n : ℕ) : Bytes := out ++ putDigits 20 n []

theorem toText_ten_step (n : ℕ) :
  toText 10 n
    = if n / 10 = 0 then [UInt8.ofNat (48 + n % 10)]
      else toText 10 (n / 10) ++ [UInt8.ofNat (48 + n % 10)]
  := by
  have hdigit : lowerHex (n % 10) = UInt8.ofNat (48 + n % 10) := by
    rw [lowerHex, if_pos (Nat.mod_lt n (by decide))]
  rw [toText, toText]
  split_ifs with hzero hdiv hdiv
  · rw [hzero]
    rfl
  · omega
  · rw [Nat.digits_def' (by decide) (Nat.pos_of_ne_zero hzero), hdiv, Nat.digits_zero, ← hdigit]
    rfl
  · rw [Nat.digits_def' (by decide) (Nat.pos_of_ne_zero hzero), List.reverse_cons, List.map_append,
      List.map_singleton, hdigit]

variable {b : UInt8} {a k n x y slots : ℕ} {l r s word bytes : Bytes}

theorem putDigits_eq (h : n < 10 ^ slots) (hslots : 0 < slots) (digits : Bytes) :
  putDigits slots n digits = toText 10 n ++ digits
  := by
  induction slots generalizing n digits with
  | zero => omega
  | succ slots ih =>
      rw [putDigits, toText_ten_step]
      split_ifs with hdiv
      · rfl
      · have hslots : 0 < slots := by
          rcases Nat.eq_zero_or_pos slots with rfl | hpos
          · omega
          · exact hpos
        rw [ih (by omega) hslots, List.append_assoc]
        rfl

/-- A number of 64 bits is written in decimal. -/
theorem writeU64_eq (out : Bytes) (h : n < 2 ^ 64) :
  writeU64 out n = out ++ toText 10 n
  := by
  rw [writeU64, putDigits_eq (by omega) (by decide), List.append_nil]

/-! ### Escapes in words -/

/-- A word of ones, a byte each. -/
def ones : ℕ := 0x0101010101010101

/-- The high bit of each byte of a word that needs an escape, up to the first, and perhaps of bytes
after it. -/
def escapes (word : ℕ) : ℕ :=
  let quote := word ^^^ (ones * 0x22)
  let backslash := word ^^^ (ones * 0x5c)
  (wrappingSub 8 word (ones * 0x20) ||| wrappingSub 8 quote ones ||| wrappingSub 8 backslash ones)
    &&& (2 ^ 64 - 1 - word) &&& (ones * 0x80)

/-- The index of the first byte that `escapes` found, or 8. -/
def first (found : ℕ) : ℕ := trailingZeros 64 found / 8

/-- Whether a byte of a string needs no escape. -/
def clean (b : UInt8) : Bool := 0x20 ≤ b && b ≠ 0x22 && b ≠ 0x5c

/-- A number of ones, a byte each. -/
def onesOf : ℕ → ℕ
  | 0 => 0
  | k + 1 => 1 + 256 * onesOf k

/-- `escapes` of a number of `k` bytes. -/
def escapesOf (k word : ℕ) : ℕ :=
  (wrappingSub k word (onesOf k * 0x20) ||| wrappingSub k (word ^^^ (onesOf k * 0x22)) (onesOf k)
      ||| wrappingSub k (word ^^^ (onesOf k * 0x5c)) (onesOf k))
    &&& (256 ^ k - 1 - word) &&& (onesOf k * 0x80)

theorem escapesOf_eight (word : ℕ) :
  escapesOf 8 word = escapes word
  := by
  have hsize : (256 : ℕ) ^ 8 = 2 ^ 64 := by decide
  rw [escapesOf, escapes, show onesOf 8 = ones by decide, hsize]

theorem onesOf_eq (k : ℕ) :
  onesOf k * 255 + 1 = 256 ^ k
  := by
  induction k with
  | zero => rfl
  | succ k ih =>
      rw [onesOf, pow_succ, ← ih]
      ring

/-- What is found of one byte. -/
def escapesByte (b : ℕ) : ℕ :=
  ((b + 256 - 0x20) % 256 ||| ((b ^^^ 0x22) + 256 - 1) % 256 ||| ((b ^^^ 0x5c) + 256 - 1) % 256)
    &&& (255 - b) &&& 0x80

theorem escapesByte_eq (b : UInt8) :
  escapesByte b.toNat = if clean b then 0 else 0x80
  := by
  have h : ∀ n < 256, escapesByte n = if clean (UInt8.ofNat n) then 0 else 0x80 := by
    decide +kernel
  have hb := h b.toNat b.toNat_lt
  rwa [UInt8.ofNat_toNat] at hb

theorem onesOf_mul (k c : ℕ) :
  onesOf (k + 1) * c = c + 256 * (onesOf k * c)
  := by
  rw [onesOf]
  ring

theorem complement_byte {k b x : ℕ} (hb : b < 256) (hx : x < 256 ^ k) :
  256 ^ (k + 1) - 1 - (b + 256 * x) = (255 - b) + 256 * (256 ^ k - 1 - x)
  := by
  have hpow : 256 ^ (k + 1) = 256 * 256 ^ k := pow_succ' 256 k
  omega

/-- Nothing is found in a byte that is clean, and then the other bytes are searched. -/
theorem escapesOf_clean (hb : clean b = true) (hx : x < 256 ^ k) :
  escapesOf (k + 1) (b.toNat + 256 * x) = 256 * escapesOf k x
  := by
  have hfound : ∀ n < 256, clean (UInt8.ofNat n) = true →
      0x20 ≤ n ∧ 1 ≤ n ^^^ 0x22 ∧ 1 ≤ n ^^^ 0x5c ∧
        (n - 0x20 ||| ((n ^^^ 0x22) - 1) ||| ((n ^^^ 0x5c) - 1)) &&& (255 - n) &&& 0x80 = 0 := by
    decide +kernel
  have hlt := b.toNat_lt
  obtain ⟨hcontrol, hquote, hbackslash, hzero⟩ := hfound b.toNat hlt (by rwa [UInt8.ofNat_toNat])
  have hones := onesOf_eq k
  have hxor : ∀ c < 256, b.toNat ^^^ c < 2 ^ 8 := fun c hc => Nat.xor_lt_two_pow hlt hc
  rw [escapesOf, onesOf_mul, onesOf_mul, onesOf_mul, onesOf_mul, xor_byte hlt (by omega),
    xor_byte hlt (by omega), complement_byte hlt hx, onesOf,
    wrappingSub_byte hlt hcontrol (by omega),
    wrappingSub_byte (hxor _ (by omega)) hquote (by omega),
    wrappingSub_byte (hxor _ (by omega)) hbackslash (by omega)]
  have hquote' : (b.toNat ^^^ 0x22) - 1 < 2 ^ 8 :=
    (Nat.sub_le _ _).trans_lt (hxor 0x22 (by omega))
  have hbackslash' : (b.toNat ^^^ 0x5c) - 1 < 2 ^ 8 :=
    (Nat.sub_le _ _).trans_lt (hxor 0x5c (by omega))
  have hor := Nat.or_lt_two_pow (show b.toNat - 0x20 < 2 ^ 8 by omega) hquote'
  rw [or_byte (by omega) hquote', or_byte hor hbackslash',
    and_byte (Nat.or_lt_two_pow hor hbackslash') (by omega),
    and_byte (Nat.and_lt_two_pow _ (by omega : 255 - b.toNat < 2 ^ 8)) (by omega), hzero, Nat.zero_add]
  rfl

/-- The high bit of a byte that is not clean is found. -/
theorem escapesOf_mod (hb : clean b = false) (hx : x < 256 ^ k) :
  escapesOf (k + 1) (b.toNat + 256 * x) % 256 = 0x80
  := by
  have hlt := b.toNat_lt
  have hones := onesOf_eq k
  have hbyte : escapesOf (k + 1) (b.toNat + 256 * x) % 2 ^ 8 = escapesByte b.toNat := by
    rw [escapesOf, onesOf_mul, onesOf_mul, onesOf_mul, onesOf_mul, xor_byte hlt (by omega),
      xor_byte hlt (by omega), complement_byte hlt hx, onesOf, Nat.and_mod_two_pow,
      Nat.and_mod_two_pow, Nat.or_mod_two_pow, Nat.or_mod_two_pow]
    have hdiff : ∀ a x c y, c < 256 → y < 256 ^ k →
        wrappingSub (k + 1) (a + 256 * x) (c + 256 * y) % 2 ^ 8 = (a + 256 - c) % 256 :=
      fun a x c y hc hy => wrappingSub_mod hc hy
    have hcomplement : ∀ y, (255 - b.toNat + 256 * y) % 2 ^ 8 = 255 - b.toNat := by omega
    have hmask : ∀ y, (0x80 + 256 * y) % 2 ^ 8 = 0x80 := by omega
    rw [hdiff _ _ _ _ (by omega) (by omega), hdiff _ _ _ _ (by omega) (by omega),
      hdiff _ _ _ _ (by omega) (by omega), hcomplement, hmask]
    rfl
  rw [escapesByte_eq, hb] at hbyte
  exact hbyte

/-- The first byte found is the first that is not clean. -/
theorem first_escapesOf (bs : Bytes) :
  trailingZeros (8 * bs.length) (escapesOf bs.length (ofLe bs)) / 8 = (bs.takeWhile clean).length
  := by
  induction bs with
  | nil => rfl
  | cons b bs ih =>
      have hlt := ofLe_lt bs
      rw [List.length_cons, ofLe, Nat.mul_succ]
      by_cases hb : clean b = true
      · rw [escapesOf_clean hb hlt, trailingZeros_byte, List.takeWhile_cons_of_pos hb,
          List.length_cons, ← ih]
        omega
      · rw [Bool.not_eq_true] at hb
        rw [trailingZeros_high_bit (escapesOf_mod hb hlt), List.takeWhile_cons_of_neg (by simp [hb])]
        rfl

/-- Nothing is found exactly when all bytes are clean. -/
theorem escapesOf_eq_zero (bs : Bytes) :
  escapesOf bs.length (ofLe bs) = 0 ↔ ∀ b ∈ bs, clean b = true
  := by
  induction bs with
  | nil => exact iff_of_true (by decide) (by simp)
  | cons b bs ih =>
      have hlt := ofLe_lt bs
      rw [List.length_cons, ofLe, List.forall_mem_cons]
      by_cases hb : clean b = true
      · rw [escapesOf_clean hb hlt, ← ih]
        simp [hb]
      · rw [Bool.not_eq_true] at hb
        have hmod := escapesOf_mod hb hlt
        apply iff_of_false
        · intro h
          rw [h] at hmod
          cases hmod
        · rintro ⟨h, -⟩
          rw [hb] at h
          cases h

theorem first_escapes (h : word.length = 8) :
  first (escapes (ofLe word)) = (word.takeWhile clean).length
  := by
  have hfirst := first_escapesOf word
  rw [h, escapesOf_eight] at hfirst
  exact hfirst

theorem escapes_eq_zero (h : word.length = 8) :
  escapes (ofLe word) = 0 ↔ ∀ b ∈ word, clean b = true
  := by
  have hzero := escapesOf_eq_zero word
  rwa [h, escapesOf_eight] at hzero

/-! ### The clean start of a string -/

/-- The bytes of a slice shorter than eight, then zeros. -/
def shortWord (bytes : Bytes) : ℕ :=
  let len := bytes.length
  if 4 ≤ len then ofLe (bytes.take 4) ||| ofLe (bytes.drop (len - 4)) <<< (8 * (len - 4))
  else
    let byte := fun i : ℕ => (bytes[i]?).elim 0 fun b => b.toNat <<< (8 * i)
    byte 0 ||| byte (len / 2) ||| byte (wrappingSub 8 len 1)

/-- The first `n` words of some bytes. -/
def wordsOf : ℕ → Bytes → List Bytes
  | 0, _ => []
  | n + 1, bytes => bytes.take 8 :: wordsOf n (bytes.drop 8)

/-- Where the first escape is in words, of which the first has index `i`. -/
def firstInWords : ℕ → List Bytes → Option ℕ
  | _, [] => none
  | i, word :: words =>
      let found := escapes (ofLe word)
      if found ≠ 0 then some (i * 8 + first found) else firstInWords (i + 1) words

/-- The length of the longest prefix of some bytes that needs no escapes, read a word at a time: the
last word overlaps the one before, and a slice shorter than a word is padded with zeros. -/
def cleanLen (bytes : Bytes) : ℕ :=
  let tail := bytes.drop (bytes.length / 8 * 8)
  match firstInWords 0 (wordsOf (bytes.length / 8) bytes) with
  | some n => n
  | none =>
      if tail = [] then bytes.length
      else if 8 ≤ bytes.length then
        bytes.length - 8 + first (escapes (ofLe (bytes.drop (bytes.length - 8))))
      else min (first (escapes (shortWord tail))) tail.length

theorem or_zero_byte (ha : a < 256) :
  a ||| 256 * y = a + 256 * y
  := by
  have h := or_byte (x := 0) (y := y) ha (by decide : 0 < 256)
  rwa [Nat.mul_zero, Nat.add_zero, Nat.zero_add, Nat.or_zero, Nat.zero_or] at h

theorem or_self_append (b c : Bytes) :
  ofLe b ||| ofLe (b ++ c) = ofLe (b ++ c)
  := by
  induction b with
  | nil => exact Nat.zero_or _
  | cons x b ih =>
      rw [List.cons_append, ofLe, ofLe, or_byte x.toNat_lt x.toNat_lt, Nat.or_self, ih]

/-- Two words that overlap in the same bytes. -/
theorem or_overlap (a b c : Bytes) :
  ofLe (a ++ b) ||| ofLe (b ++ c) <<< (8 * a.length) = ofLe (a ++ (b ++ c))
  := by
  induction a with
  | nil =>
      rw [List.length_nil, Nat.mul_zero, Nat.shiftLeft_zero]
      exact or_self_append b c
  | cons x a ih =>
      have hshift : ofLe (b ++ c) <<< (8 * (x :: a).length)
          = 0 + 256 * ofLe (b ++ c) <<< (8 * a.length) := by
        rw [List.length_cons, Nat.mul_succ, Nat.shiftLeft_eq, Nat.shiftLeft_eq, pow_add]
        ring
      rw [hshift, List.cons_append, List.cons_append, ofLe, ofLe, or_byte x.toNat_lt (by decide),
        Nat.or_zero, ih]

theorem shortWord_eq (h : bytes.length < 8) :
  shortWord bytes = ofLe bytes
  := by
  rw [shortWord]
  dsimp only
  split_ifs with hlen
  · have hmiddle : bytes.take 4 = bytes.take (bytes.length - 4)
        ++ (bytes.drop (bytes.length - 4)).take (8 - bytes.length) := by
      rw [← List.take_add]
      congr 1
      omega
    have hoverlap := or_overlap (bytes.take (bytes.length - 4))
      ((bytes.drop (bytes.length - 4)).take (8 - bytes.length))
      ((bytes.drop (bytes.length - 4)).drop (8 - bytes.length))
    rw [← hmiddle, List.take_append_drop, List.take_append_drop, List.length_take,
      min_eq_left (Nat.sub_le _ _)] at hoverlap
    exact hoverlap
  · have hlast : ∀ n < 3, wrappingSub 8 (n + 1) 1 = n := by decide
    match bytes, hlen with
    | [], _ => decide
    | [a], _ =>
        simp only [List.length_cons, List.length_nil, hlast 0 (by decide)]
        show a.toNat <<< 0 ||| a.toNat <<< 0 ||| a.toNat <<< 0 = a.toNat + 256 * 0
        rw [Nat.or_self, Nat.or_self]
        rfl
    | [a, b], _ =>
        simp only [List.length_cons, List.length_nil, hlast 1 (by decide)]
        show a.toNat <<< 0 ||| b.toNat <<< 8 ||| b.toNat <<< 8
          = a.toNat + 256 * (b.toNat + 256 * 0)
        rw [Nat.or_assoc, Nat.or_self, Nat.shiftLeft_zero, Nat.shiftLeft_eq,
          show b.toNat * 2 ^ 8 = 256 * b.toNat by ring, or_zero_byte a.toNat_lt]
        rfl
    | [a, b, c], _ =>
        simp only [List.length_cons, List.length_nil, hlast 2 (by decide)]
        show a.toNat <<< 0 ||| b.toNat <<< 8 ||| c.toNat <<< 16
          = a.toNat + 256 * (b.toNat + 256 * (c.toNat + 256 * 0))
        rw [Nat.or_assoc, Nat.shiftLeft_zero, Nat.shiftLeft_eq, Nat.shiftLeft_eq,
          show b.toNat * 2 ^ 8 = 0 + 256 * b.toNat by ring,
          show c.toNat * 2 ^ 16 = 0 + 256 * (256 * c.toNat) by ring, or_byte (by decide) (by decide),
          or_zero_byte b.toNat_lt, Nat.or_self, Nat.zero_add, or_zero_byte a.toNat_lt]
        rfl
    | _ :: _ :: _ :: _ :: _, hlen => simp at hlen

theorem first_shortWord (h : bytes.length < 8) :
  first (escapes (shortWord bytes)) = (bytes.takeWhile clean).length
  := by
  have hpad : ofLe bytes = ofLe (bytes ++ List.replicate (8 - bytes.length) 0) := by
    rw [ofLe_append, ofLe_replicate_zero, Nat.mul_zero, Nat.add_zero]
  have hlen : (bytes ++ List.replicate (8 - bytes.length) 0).length = 8 := by
    rw [List.length_append, List.length_replicate]
    omega
  rw [shortWord_eq h, hpad, first_escapes hlen]
  obtain ⟨n, hn⟩ : ∃ n, 8 - bytes.length = n + 1 := ⟨7 - bytes.length, by omega⟩
  rw [hn, List.replicate_succ]
  congr 1
  clear hpad hlen hn h
  induction bytes with
  | nil => rfl
  | cons b bytes ih =>
      rw [List.cons_append, List.takeWhile_cons, List.takeWhile_cons, ih]

theorem takeWhile_append_of_forall (h : ∀ b ∈ l, clean b = true) :
  (l ++ r).takeWhile clean = l ++ r.takeWhile clean
  := List.takeWhile_append_of_pos h

/-- The search in words: it finds the first byte that is not clean, or all their bytes are. -/
theorem firstInWords_eq (i : ℕ) (bytes : Bytes) (h : n * 8 ≤ bytes.length) :
  (∀ m, firstInWords i (wordsOf n bytes) = some m →
      m = i * 8 + (bytes.takeWhile clean).length)
    ∧ (firstInWords i (wordsOf n bytes) = none → ∀ b ∈ bytes.take (n * 8), clean b = true)
  := by
  induction n generalizing i bytes with
  | zero => exact ⟨nofun, by simp⟩
  | succ n ih =>
      have hword : (bytes.take 8).length = 8 := by
        rw [List.length_take]
        omega
      have hsplit := List.take_append_drop 8 bytes
      rw [wordsOf, firstInWords]
      by_cases hfound : escapes (ofLe (bytes.take 8)) = 0
      · have hclean := (escapes_eq_zero hword).mp hfound
        obtain ⟨hsome, hnone⟩ := ih (i + 1) (bytes.drop 8)
          (by rw [List.length_drop]; omega)
        rw [if_neg (not_not.mpr hfound)]
        constructor
        · intro m hm
          rw [hsome m hm, ← hsplit, takeWhile_append_of_forall hclean, List.length_append, hword,
            hsplit]
          omega
        · intro hm b hb
          rw [show (n + 1) * 8 = 8 + n * 8 by omega, List.take_add] at hb
          rcases List.mem_append.mp hb with hb | hb
          · exact hclean b hb
          · exact hnone hm b hb
      · rw [if_pos hfound]
        refine ⟨?_, nofun⟩
        intro m hm
        cases hm
        have hlen : ((bytes.take 8).takeWhile clean).length ≠ (bytes.take 8).length := by
          intro heq
          have hpre := List.takeWhile_prefix clean (l := bytes.take 8)
          rw [hpre.eq_of_length heq] at hpre
          apply hfound
          rw [escapes_eq_zero hword, ← List.takeWhile_eq_self_iff]
          exact (List.takeWhile_prefix clean).eq_of_length heq
        rw [first_escapes hword]
        nth_rewrite 2 [← hsplit]
        rw [List.takeWhile_append, if_neg hlen]

/-- The search finds the longest prefix without escapes. -/
theorem cleanLen_eq (bytes : Bytes) :
  cleanLen bytes = (bytes.takeWhile clean).length
  := by
  obtain ⟨hsome, hnone⟩ := firstInWords_eq (n := bytes.length / 8) 0 bytes (by omega)
  rw [cleanLen]
  cases hfirst : firstInWords 0 (wordsOf (bytes.length / 8) bytes) with
  | some m =>
      show m = _
      rw [hsome m hfirst, Nat.zero_mul, Nat.zero_add]
  | none =>
      dsimp only
      have hwords := hnone hfirst
      split_ifs with htail hlong
      · have hall : bytes.take (bytes.length / 8 * 8) = bytes := by
          have hsplit := List.take_append_drop (bytes.length / 8 * 8) bytes
          rwa [htail, List.append_nil] at hsplit
        rw [hall] at hwords
        rw [List.takeWhile_eq_self_iff.mpr hwords]
      · have hlast : (bytes.drop (bytes.length - 8)).length = 8 := by
          rw [List.length_drop]
          omega
        have hclean : ∀ b ∈ bytes.take (bytes.length - 8), clean b = true := by
          intro b hb
          exact hwords b (List.take_subset_take_left bytes (by omega) hb)
        have hrest := takeWhile_append_of_forall hclean (r := bytes.drop (bytes.length - 8))
        rw [List.take_append_drop] at hrest
        rw [first_escapes hlast, hrest, List.length_append, List.length_take,
          min_eq_left (Nat.sub_le _ _)]
      · have hzero : bytes.length / 8 * 8 = 0 := by omega
        rw [hzero, List.drop_zero, first_shortWord (by omega)]
        exact min_eq_left (List.takeWhile_prefix clean).length_le

/-! ### Strings -/

/-- The escape of a byte that needs one. -/
def escapeByte (byte : UInt8) : Bytes :=
  if byte = 0x22 ∨ byte = 0x5c then [0x5c, byte]
  else if byte = 0x08 then [0x5c, char 'b']
  else if byte = 0x09 then [0x5c, char 't']
  else if byte = 0x0a then [0x5c, char 'n']
  else if byte = 0x0c then [0x5c, char 'f']
  else if byte = 0x0d then [0x5c, char 'r']
  else [0x5c, char 'u', char '0', char '0', lowerHex (byte.toNat / 16), lowerHex (byte.toNat % 16)]

/-- Write text with its escapes, clean prefix by clean prefix. -/
def writeEscaped (out rest : Bytes) : Bytes :=
  let out := out ++ rest.take (cleanLen rest)
  match _h : rest.drop (cleanLen rest) with
  | [] => out
  | byte :: tail => writeEscaped (out ++ escapeByte byte) tail
termination_by rest.length
decreasing_by
  have hlen := congrArg List.length _h
  rw [List.length_drop, List.length_cons] at hlen
  omega

/-- Write text as a JSON string. Short text without escapes is quoted in a buffer of ten bytes. -/
def writeStr (out text : Bytes) : Bytes :=
  let len := text.length
  if len < 8 ∧ first (escapes (shortWord text)) = len then
    let quoted := (0x22 :: le 8 (shortWord text) ++ [0x22]).set (1 + len) 0x22
    (out ++ quoted).take (out.length + len + 2)
  else writeEscaped (out ++ [0x22]) text ++ [0x22]

theorem escapeByte_eq (h : clean b = false) :
  escapeByte b = jsonEscape b
  := by
  have hall : ∀ n < 256, clean (UInt8.ofNat n) = false →
      escapeByte (UInt8.ofNat n) = jsonEscape (UInt8.ofNat n) := by
    decide +kernel
  have hb := hall b.toNat b.toNat_lt
  rw [UInt8.ofNat_toNat] at hb
  exact hb h

theorem jsonEscape_clean (h : clean b = true) :
  jsonEscape b = [b]
  := by
  have hall : ∀ n < 256, clean (UInt8.ofNat n) = true →
      jsonEscape (UInt8.ofNat n) = [UInt8.ofNat n] := by
    decide +kernel
  have hb := hall b.toNat b.toNat_lt
  rw [UInt8.ofNat_toNat] at hb
  exact hb h

theorem flatMap_jsonEscape_clean (h : ∀ b ∈ s, clean b = true) :
  s.flatMap jsonEscape = s
  := by
  induction s with
  | nil => rfl
  | cons b s ih =>
      rw [List.flatMap_cons, jsonEscape_clean (h b List.mem_cons_self),
        ih fun c hc => h c (List.mem_cons_of_mem b hc)]
      rfl

theorem take_cleanLen (rest : Bytes) :
  rest.take (cleanLen rest) = rest.takeWhile clean
  := by
  rw [cleanLen_eq]
  nth_rewrite 2 [← List.takeWhile_append_dropWhile (p := clean) (l := rest)]
  exact List.take_left

theorem drop_cleanLen (rest : Bytes) :
  rest.drop (cleanLen rest) = rest.dropWhile clean
  := by
  rw [cleanLen_eq]
  nth_rewrite 2 [← List.takeWhile_append_dropWhile (p := clean) (l := rest)]
  exact List.drop_left

/-- Text is written with each byte as it is or as its escape. -/
theorem writeEscaped_eq (out rest : Bytes) :
  writeEscaped out rest = out ++ rest.flatMap jsonEscape
  := by
  have hclean : ∀ b ∈ rest.takeWhile clean, clean b = true := fun b hb =>
    List.mem_takeWhile_imp hb
  have hsplit := List.takeWhile_append_dropWhile (p := clean) (l := rest)
  rw [writeEscaped]
  split
  · rename_i hdrop
    rw [drop_cleanLen] at hdrop
    rw [hdrop, List.append_nil] at hsplit
    rw [take_cleanLen, hsplit, flatMap_jsonEscape_clean (hsplit ▸ hclean)]
  · rename_i byte tail hdrop
    rw [drop_cleanLen] at hdrop
    have hlt : tail.length < rest.length := by
      rw [← hsplit, hdrop, List.length_append, List.length_cons]
      omega
    have hbyte : clean byte = false := by
      have hnot := List.head?_dropWhile_not clean rest
      rw [hdrop] at hnot
      exact hnot
    have hrest : rest.flatMap jsonEscape
        = rest.takeWhile clean ++ (jsonEscape byte ++ tail.flatMap jsonEscape) := by
      conv_lhs => rw [← hsplit, hdrop]
      rw [List.flatMap_append, flatMap_jsonEscape_clean hclean, List.flatMap_cons]
    rw [writeEscaped_eq _ tail, take_cleanLen, escapeByte_eq hbyte, hrest]
    simp only [List.append_assoc]
termination_by rest.length

/-- Text is written as a JSON string. -/
theorem writeStr_eq (out text : Bytes) :
  writeStr out text = out ++ jsonString text
  := by
  rw [writeStr]
  dsimp only
  split_ifs with hshort
  · obtain ⟨hlen, hfirst⟩ := hshort
    rw [first_shortWord hlen] at hfirst
    have hclean : ∀ b ∈ text, clean b = true := by
      rw [← List.takeWhile_eq_self_iff]
      exact (List.takeWhile_prefix clean).eq_of_length hfirst
    have hpad : shortWord text = ofLe (text ++ List.replicate (8 - text.length) 0) := by
      rw [shortWord_eq hlen, ofLe_append, ofLe_replicate_zero, Nat.mul_zero, Nat.add_zero]
    have hword : le 8 (shortWord text) = text ++ List.replicate (8 - text.length) 0 := by
      rw [hpad]
      apply le_ofLe
      rw [List.length_append, List.length_replicate]
      omega
    obtain ⟨n, hn⟩ : ∃ n, 8 - text.length = n + 1 := ⟨7 - text.length, by omega⟩
    have hquoted : ((0x22 :: (text ++ 0 :: List.replicate n 0)) ++ [0x22]).set (1 + text.length) 0x22
        = 0x22 :: (text ++ 0x22 :: (List.replicate n 0 ++ [0x22])) := by
      rw [List.cons_append, Nat.add_comm 1, List.set_cons_succ, List.append_assoc,
        List.set_append_right _ _ le_rfl, Nat.sub_self]
      rfl
    rw [hword, jsonString, flatMap_jsonEscape_clean hclean, hn, List.replicate_succ, hquoted,
      Nat.add_assoc, List.take_length_add_append, List.take_succ_cons, List.take_length_add_append]
    rfl
  · rw [writeEscaped_eq, jsonString]
    simp only [List.append_assoc, List.cons_append, List.nil_append]

end Shrike.Cbor
