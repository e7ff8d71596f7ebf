import Mathlib.Data.Nat.Digits.Lemmas
import Shrike.Data.Percent

/-!
# Numbers in text

Numbers written in a base up to 16, and a reader of the longest run of digits that a text starts
with.
-/

namespace Bytes

/-- The value of a digit. -/
def toDigit (radix : ℕ) (b : UInt8) : Option ℕ := (hexDigit b).filter (· < radix)

/-- The lowercase digit of a number below 16. -/
def lowerHex (n : ℕ) : UInt8 := if n < 10 then UInt8.ofNat (48 + n) else UInt8.ofNat (87 + n)

variable {n : ℕ}

theorem hexDigit_lowerHex (h : n < 16) :
  hexDigit (lowerHex n) = some n
  := by
  have hall : ∀ n : Fin 16, hexDigit (lowerHex n) = some n.val := by decide
  exact hall ⟨n, h⟩

theorem toDigit_lowerHex {radix n : ℕ} (hradix : radix ≤ 16) (h : n < radix) :
  toDigit radix (lowerHex n) = some n
  := by
  rw [toDigit, hexDigit_lowerHex (by omega), Option.filter_some, if_pos (by simpa using h)]

theorem lowerHex_ne_zero (hn : n < 16) (h : n ≠ 0) :
  lowerHex n ≠ char '0'
  := by
  intro h0
  have h1 := hexDigit_lowerHex hn
  rw [h0] at h1
  have h2 : hexDigit (char '0') = some 0 := by decide
  rw [h2] at h1
  exact h (Option.some.inj h1).symm

/-- The number that digits spell, the most significant one first. -/
def ofText (radix : ℕ) (text : Bytes) : ℕ :=
  Nat.ofDigits radix (text.filterMap (toDigit radix)).reverse

/-- A number in text. -/
def toText (radix n : ℕ) : Bytes :=
  if n = 0 then [char '0'] else (Nat.digits radix n).reverse.map lowerHex

/-- The digits that a text starts with. -/
def digitsOf (radix : ℕ) (bs : Bytes) : Bytes := bs.takeWhile fun b => (toDigit radix b).isSome

/-- The text after its first digits. -/
def afterDigits (radix : ℕ) (bs : Bytes) : Bytes := bs.dropWhile fun b => (toDigit radix b).isSome

theorem digitsOf_append_afterDigits (radix : ℕ) (bs : Bytes) :
  digitsOf radix bs ++ afterDigits radix bs = bs
  := List.takeWhile_append_dropWhile

/-- Read a number below `bound` of at most `maxDigits` digits, with or without zeros before it. -/
def readNumber (radix maxDigits : ℕ) (allowZeroPrefix : Bool) (bound : ℕ) (bs : Bytes) :
    Option (ℕ × Bytes) :=
  let text := digitsOf radix bs
  if text = [] ∨ maxDigits < text.length then none
  else if allowZeroPrefix = false ∧ text.head? = some (char '0') ∧ 1 < text.length then none
  else if bound ≤ ofText radix text then none
  else some (ofText radix text, afterDigits radix bs)

/-- Read a given character. -/
def readChar (c : UInt8) : Bytes → Option Bytes
  | [] => none
  | b :: bs => if b = c then some bs else none

section

variable {radix : ℕ} (hradix : 1 < radix ∧ radix ≤ 16)

include hradix

variable {k n bound maxDigits : ℕ}

theorem isSome_toDigit_of_mem_toText {b : UInt8} (h : b ∈ toText radix n) :
  (toDigit radix b).isSome = true
  := by
  rw [toText] at h
  split_ifs at h
  · rw [List.mem_singleton.mp h]
    show (toDigit radix (lowerHex 0)).isSome = true
    rw [toDigit_lowerHex hradix.2 (by omega)]
    rfl
  · obtain ⟨d, hd, rfl⟩ := List.mem_map.mp h
    rw [toDigit_lowerHex hradix.2 (Nat.digits_lt_base hradix.1 (List.mem_reverse.mp hd))]
    rfl

/-- A number is read back from its text. -/
theorem ofText_toText (n : ℕ) :
  ofText radix (toText radix n) = n
  := by
  rw [toText]
  split_ifs with h
  · have hzero : toDigit radix (lowerHex 0) = some 0 := toDigit_lowerHex hradix.2 (by omega)
    change ofText radix [lowerHex 0] = n
    rw [ofText, List.filterMap_cons_some hzero, h]
    simp
  · have hdigits : ((Nat.digits radix n).reverse.map lowerHex).filterMap (toDigit radix) =
        (Nat.digits radix n).reverse := by
      rw [List.filterMap_map]
      have hsome : ∀ d ∈ (Nat.digits radix n).reverse,
          (toDigit radix ∘ lowerHex) d = some d := by
        intro d hd
        apply toDigit_lowerHex hradix.2
        apply Nat.digits_lt_base hradix.1 (List.mem_reverse.mp hd)
      rw [List.filterMap_congr hsome, List.filterMap_some]
    rw [ofText, hdigits, List.reverse_reverse, Nat.ofDigits_digits]

omit hradix in
theorem toText_ne_nil (n : ℕ) :
  toText radix n ≠ []
  := by
  rw [toText]
  split_ifs with h
  · apply List.cons_ne_nil
  · simpa [Nat.digits_eq_nil_iff_eq_zero] using h

theorem length_toText_le (h : n < radix ^ k) (hk : 0 < k) :
  (toText radix n).length ≤ k
  := by
  rw [toText]
  split_ifs
  · exact hk
  · rw [List.length_map, List.length_reverse]
    rw [Nat.digits_length_le_iff hradix.1]
    exact h

/-- A text starts with a zero only if it is one. -/
theorem length_toText_of_zero (h : (toText radix n).head? = some (char '0')) :
  (toText radix n).length = 1
  := by
  rw [toText] at h ⊢
  split_ifs at h ⊢ with hn
  · rfl
  · exfalso
    have hne : Nat.digits radix n ≠ [] := by
      simpa [Nat.digits_eq_nil_iff_eq_zero] using hn
    rw [List.head?_map, List.head?_reverse, List.getLast?_eq_getLast_of_ne_nil hne] at h
    have hlast := Nat.getLast_digit_ne_zero radix hn
    have hlt := Nat.digits_lt_base hradix.1 (List.getLast_mem hne)
    apply lowerHex_ne_zero _ hlast (Option.some.inj h)
    omega

/-- The digits of a text that starts with a number. -/
theorem digitsOf_toText_append {rest : Bytes} (hrest : ∀ b ∈ rest.head?, toDigit radix b = none) :
  digitsOf radix (toText radix n ++ rest) = toText radix n
  := by
  rw [digitsOf, List.takeWhile_append_of_pos]
  · have hnil : rest.takeWhile (fun b => (toDigit radix b).isSome) = [] := by
      cases rest with
      | nil => rfl
      | cons b rest =>
          have hb := hrest b rfl
          rw [List.takeWhile_cons_of_neg]
          rw [hb]
          decide
    rw [hnil, List.append_nil]
  · intro b hb
    exact isSome_toDigit_of_mem_toText hradix hb

/-- A number is read from its text, up to the first character that is no digit. -/
theorem readNumber_toText {allowZeroPrefix : Bool} {rest : Bytes}
    (hlength : n < radix ^ maxDigits) (hmax : 0 < maxDigits) (hbound : n < bound)
    (hrest : ∀ b ∈ rest.head?, toDigit radix b = none) :
  readNumber radix maxDigits allowZeroPrefix bound (toText radix n ++ rest) = some (n, rest)
  := by
  have hdigits := digitsOf_toText_append hradix (n := n) hrest
  have hle := length_toText_le hradix hlength hmax
  have hafter := digitsOf_append_afterDigits radix (toText radix n ++ rest)
  rw [hdigits, List.append_cancel_left_eq] at hafter
  rw [readNumber, hdigits, if_neg, if_neg, ofText_toText hradix, if_neg (by omega), hafter]
  · rintro ⟨-, hzero, hlt⟩
    have := length_toText_of_zero hradix hzero
    omega
  · rintro (hnil | hlt)
    · exact toText_ne_nil n hnil
    · omega

end

/-- What a number is read from. -/
theorem readNumber_some {radix maxDigits bound n : ℕ} {allowZeroPrefix : Bool} {bs rest : Bytes}
    (h : readNumber radix maxDigits allowZeroPrefix bound bs = some (n, rest)) :
  ∃ text, bs = text ++ rest ∧ text ≠ [] ∧ text.length ≤ maxDigits ∧
    (∀ b ∈ text, (toDigit radix b).isSome = true) ∧
    (allowZeroPrefix = false → text.head? = some (char '0') → text.length ≤ 1) ∧
    n = ofText radix text ∧ n < bound
  := by
  rw [readNumber] at h
  split_ifs at h with hempty hzero hbound
  obtain ⟨hn, hrest⟩ := Prod.mk.inj (Option.some.inj h)
  rw [not_or] at hempty
  use digitsOf radix bs
  refine ⟨?_, hempty.1, by omega, ?_, ?_, hn.symm, by omega⟩
  · rw [← hrest, digitsOf_append_afterDigits]
  · intro b hb
    exact (List.all_eq_true.mp (List.all_takeWhile)) b hb
  · intro hallow hhead
    by_contra hlt
    exact hzero ⟨hallow, hhead, by omega⟩

theorem readChar_some {c : UInt8} {bs rest : Bytes} (h : readChar c bs = some rest) :
  bs = c :: rest
  := by
  cases bs with
  | nil => cases h
  | cons b bs =>
      rw [readChar] at h
      split_ifs at h with hb
      rw [hb, Option.some.inj h]

/-! ### Numbers of 64 bits -/

theorem isAsciiDigit_of_mem_toText {b : UInt8} (h : b ∈ toText 10 n) :
  isAsciiDigit b = true
  := by
  have hdigit : ∀ d : Fin 10, isAsciiDigit (lowerHex d) = true := by decide
  rw [toText] at h
  split_ifs at h
  · rw [List.mem_singleton.mp h]
    decide
  · obtain ⟨d, hd, rfl⟩ := List.mem_map.mp h
    have hlt := Nat.digits_lt_base (by omega : 1 < 10) (List.mem_reverse.mp hd)
    exact hdigit ⟨d, hlt⟩

end Bytes
