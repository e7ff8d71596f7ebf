import Shrike.Syntax.TidClock

/-!
# The text of a TID

Each TID has one text, and texts are in the order of the TIDs.
-/

namespace Shrike.Syntax.Tid

open Bytes

/-! ### Characters -/

theorem digit_base32Decode_ofNat :
  ∀ i < 256, isTidChar (UInt8.ofNat i) = true → (base32Decode (UInt8.ofNat i)).toNat < 32
    ∧ alphabet.getD (base32Decode (UInt8.ofNat i)).toNat 0 = UInt8.ofNat i
  := by
  decide +kernel

variable {c : UInt8}

/-- The value of a character of the alphabet is below 32, and its character is the character. -/
theorem digit_base32Decode (h : isTidChar c = true) :
  (base32Decode c).toNat < 32 ∧ alphabet.getD (base32Decode c).toNat 0 = c
  := by
  have hofNat := digit_base32Decode_ofNat c.toNat c.toNat_lt
  rw [UInt8.ofNat_toNat] at hofNat
  exact hofNat h

theorem firstChar_lt_ofNat :
  ∀ i < 256, isTidFirstChar (UInt8.ofNat i) = true →
    isTidChar (UInt8.ofNat i) = true ∧ (base32Decode (UInt8.ofNat i)).toNat < 16
  := by
  decide +kernel

/-- The value of a first character is below 16. -/
theorem firstChar_lt (h : isTidFirstChar c = true) :
  isTidChar c = true ∧ (base32Decode c).toNat < 16
  := by
  have hofNat := firstChar_lt_ofNat c.toNat c.toNat_lt
  rw [UInt8.ofNat_toNat] at hofNat
  exact hofNat h

/-- The alphabet is in the order of the values. -/
theorem alphabet_lt :
  ∀ j < 32, ∀ i < j, alphabet.getD i 0 < alphabet.getD j 0
  := by
  decide

/-! ### Reading -/

/-- The value that characters spell after others that spell a value. -/
def spelled (v : UInt64) (bs : Bytes) : UInt64 :=
  bs.foldl (fun v b => v <<< 5 ||| (base32Decode b).toUInt64) v

theorem spelled_concat (v : UInt64) (bs : Bytes) (c : UInt8) :
  spelled v (bs ++ [c]) = spelled v bs <<< 5 ||| (base32Decode c).toUInt64
  := by rw [spelled, List.foldl_append, List.foldl_cons, List.foldl_nil, spelled]

variable {v w : UInt64}

/-- One more character takes five bits. -/
theorem toNat_shiftLeft_or (hv : v.toNat < 2 ^ 59) (hc : isTidChar c = true) :
  (v <<< 5 ||| (base32Decode c).toUInt64).toNat = v.toNat * 32 + (base32Decode c).toNat
  := by
  have hlt := (digit_base32Decode hc).1
  have hshift : (v <<< 5).toNat = v.toNat <<< 5 := by
    rw [UInt64.toNat_shiftLeft]
    apply Nat.mod_eq_of_lt
    rw [Nat.shiftLeft_eq]
    show v.toNat * 2 ^ 5 < 2 ^ 64
    omega
  rw [UInt64.toNat_or, hshift, UInt8.toNat_toUInt64, ← Nat.shiftLeft_add_eq_or_of_lt (by omega),
    Nat.shiftLeft_eq]

variable {bs raw rest rest' : Bytes}

/-- Characters after a value that leaves room for them spell one that is below the next. -/
theorem spelled_lt (hbs : ∀ c ∈ bs, isTidChar c = true)
    (hv : (v.toNat + 1) * 32 ^ bs.length ≤ 2 ^ 64) :
  (spelled v bs).toNat < (v.toNat + 1) * 32 ^ bs.length
  := by
  induction bs using List.reverseRecOn with
  | nil => simp [spelled]
  | append_singleton bs c ih =>
      rw [List.length_append, List.length_singleton, Nat.pow_succ, ← Nat.mul_assoc] at hv ⊢
      have ih := ih (fun b hb => hbs b (List.mem_append_left _ hb)) (by omega)
      have hc := hbs c (List.mem_append_right _ List.mem_cons_self)
      have hlt := (digit_base32Decode hc).1
      rw [spelled_concat, toNat_shiftLeft_or (by omega) hc]
      omega

/-- Characters that were read after a value are written as they were read. -/
theorem formatFrom_spelled (hbs : ∀ c ∈ bs, isTidChar c = true)
    (hv : (v.toNat + 1) * 32 ^ bs.length ≤ 2 ^ 64) (n : ℕ) (rest : Bytes) :
  formatFrom (n + bs.length) (spelled v bs) rest = formatFrom n v (bs ++ rest)
  := by
  induction bs using List.reverseRecOn generalizing rest with
  | nil => rfl
  | append_singleton bs c ih =>
      rw [List.length_append, List.length_singleton, Nat.pow_succ, ← Nat.mul_assoc] at hv
      have hbs' : ∀ b ∈ bs, isTidChar b = true := fun b hb => hbs b (List.mem_append_left _ hb)
      have hc := hbs c (List.mem_append_right _ List.mem_cons_self)
      have hlt := spelled_lt (v := v) hbs' (by omega)
      obtain ⟨hdigit, hchar⟩ := digit_base32Decode hc
      have hvalue := toNat_shiftLeft_or (v := spelled v bs) (by omega) hc
      rw [← spelled_concat] at hvalue
      have hshift : spelled v (bs ++ [c]) >>> 5 = spelled v bs := by
        apply UInt64.toNat_inj.mp
        rw [toNat_shiftRight_five, hvalue]
        omega
      have hlast : encodeDigit (spelled v (bs ++ [c])) = c := by
        rw [encodeDigit, toNat_and_31, hvalue, Nat.mul_add_mod_self_right, Nat.mod_eq_of_lt hdigit,
          hchar]
      rw [List.length_append, List.length_singleton, ← Nat.add_assoc, formatFrom_succ, hshift,
        hlast, ih hbs' (by omega), List.append_assoc]
      rfl

/-- A string that is read as a TID is the text of the TID. -/
theorem format_of_tryFrom {tid : Tid} (h : tryFrom raw = .ok tid) :
  tid.format = raw
  := by
  rw [tryFrom] at h
  split_ifs at h with hlength hfirst htail
  cases h
  cases raw with
  | nil => simp at hlength
  | cons c bs =>
      have hlength : bs.length = 12 := by simpa using hlength
      obtain ⟨hc, hlt⟩ := firstChar_lt (c := c) (by simpa using hfirst)
      have hbs : ∀ b ∈ bs, isTidChar b = true := by simpa using htail
      have hspell : (c :: bs).foldl (fun (v : UInt64) b => v <<< 5 ||| (base32Decode b).toUInt64) 0
          = spelled (base32Decode c).toUInt64 bs := by
        rw [List.foldl_cons, UInt64.zero_shiftLeft, UInt64.zero_or, spelled]
      have hwrite := formatFrom_spelled (v := (base32Decode c).toUInt64) hbs
        (by rw [hlength, UInt8.toNat_toUInt64]; omega) 1 []
      rw [hlength] at hwrite
      rw [format, hspell, hwrite, List.append_nil, formatFrom_succ, formatFrom]
      have hchar : encodeDigit (base32Decode c).toUInt64 = c := by
        rw [encodeDigit, toNat_and_31, UInt8.toNat_toUInt64, Nat.mod_eq_of_lt (by omega),
          (digit_base32Decode hc).2]
      rw [hchar]

/-! ### Order -/

theorem formatFrom_lt_formatFrom (h : rest < rest') (n : ℕ) (v : UInt64) :
  formatFrom n v rest < formatFrom n v rest'
  := by
  induction n generalizing v rest rest' with
  | zero => exact h
  | succ n ih =>
      rw [formatFrom_succ, formatFrom_succ]
      exact ih (List.cons_lt_cons_self.mpr h) _

/-- Texts of the same length are in the order of the values. -/
theorem formatFrom_lt {n : ℕ} (hw : w.toNat < 32 ^ n) (h : v.toNat < w.toNat) (rest rest' : Bytes) :
  formatFrom n v rest < formatFrom n w rest'
  := by
  induction n generalizing v w rest rest' with
  | zero => omega
  | succ n ih =>
      rw [Nat.pow_succ] at hw
      rw [formatFrom_succ, formatFrom_succ]
      by_cases hhigh : (v >>> 5).toNat < (w >>> 5).toNat
      · apply ih _ hhigh
        rw [toNat_shiftRight_five]
        omega
      · rw [toNat_shiftRight_five, toNat_shiftRight_five] at hhigh
        have hsame : v >>> 5 = w >>> 5 := by
          apply UInt64.toNat_inj.mp
          rw [toNat_shiftRight_five, toNat_shiftRight_five]
          omega
        rw [hsame]
        apply formatFrom_lt_formatFrom
        have hdigit : encodeDigit v < encodeDigit w := by
          rw [encodeDigit, encodeDigit, toNat_and_31, toNat_and_31]
          apply alphabet_lt _ (Nat.mod_lt _ (by decide))
          omega
        exact List.Lex.rel hdigit

theorem format_lt {a b : Tid} (h : a < b) :
  a.format < b.format
  := formatFrom_lt (by have hlt := b.value.toNat_lt; omega) (lt_iff.mp h) [] []

/-- TIDs and their texts are in one to one correspondence, and in the same order. -/
theorem text_order_bijection :
  (∀ tid : Tid, tryFrom tid.format = .ok tid)
    ∧ (∀ raw tid, tryFrom raw = .ok tid → tid.format = raw)
    ∧ ∀ a b : Tid, a < b ↔ a.format < b.format
  := by
  refine ⟨tryFrom_format, fun _ _ => format_of_tryFrom, fun a b => ⟨format_lt, fun h => ?_⟩⟩
  rcases lt_trichotomy a.value.toNat b.value.toNat with hlt | heq | hgt
  · exact lt_iff.mpr hlt
  · rw [show a = b from congrArg Tid.mk (UInt64.toNat_inj.mp heq)] at h
    exact absurd h (lt_irrefl _)
  · exact absurd h (lt_asymm (format_lt (lt_iff.mpr hgt)))

end Shrike.Syntax.Tid
