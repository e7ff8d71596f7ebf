import Shrike.Data.Text

/-!
# Percent-encoding

Escapes of bytes by two hexadecimal digits, and the two ways of reading them back: strictly, as
in a URI component, and leniently, as in the query of a form.
-/

namespace Bytes

/-- The value of a hexadecimal digit. -/
def hexDigit (b : UInt8) : Option ℕ :=
  if isAsciiDigit b then some (b.toNat - 48)
  else if 65 ≤ b && b ≤ 70 then some (b.toNat - 55)
  else if 97 ≤ b && b ≤ 102 then some (b.toNat - 87)
  else none

/-- The uppercase hexadecimal digit of a number below 16. -/
def upperHex (n : ℕ) : UInt8 := if n < 10 then UInt8.ofNat (48 + n) else UInt8.ofNat (55 + n)

/-- The escape of a byte. -/
def escape (b : UInt8) : Bytes := [char '%', upperHex (b.toNat / 16), upperHex (b.toNat % 16)]

/-- The byte that two hexadecimal digits spell. -/
def hexPair (a b : UInt8) : Option UInt8 := do
  let hi ← hexDigit a
  let lo ← hexDigit b
  some (UInt8.ofNat (hi * 16 + lo))

theorem hexDigit_upperHex {n : ℕ} (h : n < 16) :
  hexDigit (upperHex n) = some n
  := by
  have hall : ∀ n : Fin 16, hexDigit (upperHex n) = some n.val := by decide
  exact hall ⟨n, h⟩

@[simp]
theorem hexPair_escape (b : UInt8) :
  hexPair (upperHex (b.toNat / 16)) (upperHex (b.toNat % 16)) = some b
  := by
  have hb : b.toNat < 256 := b.toNat_lt
  rw [hexPair, hexDigit_upperHex (by omega), hexDigit_upperHex (by omega)]
  have hdigits : b.toNat / 16 * 16 + b.toNat % 16 = b.toNat := by omega
  show some (UInt8.ofNat (b.toNat / 16 * 16 + b.toNat % 16)) = some b
  rw [hdigits, UInt8.ofNat_toNat]

/-! ### Strict decoding -/

/-- Decode escapes strictly: every percent sign starts one. -/
def unescape : Bytes → Option Bytes
  | [] => some []
  | b :: bs =>
      if b = char '%' then
        match bs with
        | a :: c :: bs => do
            let byte ← hexPair a c
            let rest ← unescape bs
            some (byte :: rest)
        | _ => none
      else do
        let rest ← unescape bs
        some (b :: rest)

theorem unescape_escape_append (b : UInt8) (bs : Bytes) :
  unescape (escape b ++ bs) = (unescape bs).map (b :: ·)
  := by
  show unescape (char '%' :: upperHex (b.toNat / 16) :: upperHex (b.toNat % 16) :: bs) = _
  rw [unescape, if_pos rfl, hexPair_escape]
  cases unescape bs with
  | none => rfl
  | some rest => rfl

theorem unescape_cons {b : UInt8} (h : b ≠ char '%') (bs : Bytes) :
  unescape (b :: bs) = (unescape bs).map (b :: ·)
  := by
  rw [unescape.eq_def]
  dsimp only
  rw [if_neg h]
  cases unescape bs with
  | none => rfl
  | some rest => rfl

/-! ### Lenient decoding -/

/-- Decode a component of a form: a plus sign stands for a space, and a percent sign that
starts no escape stands for itself. -/
def formUnescape : Bytes → Bytes
  | [] => []
  | b :: bs =>
      if b = char '+' then char ' ' :: formUnescape bs
      else if b = char '%' then
        match bs with
        | a :: c :: rest =>
            match hexPair a c with
            | some byte => byte :: formUnescape rest
            | none => b :: formUnescape (a :: c :: rest)
        | rest => b :: formUnescape rest
      else b :: formUnescape bs

theorem formUnescape_escape_append (b : UInt8) (bs : Bytes) :
  formUnescape (escape b ++ bs) = b :: formUnescape bs
  := by
  show formUnescape (char '%' :: upperHex (b.toNat / 16) :: upperHex (b.toNat % 16) :: bs) = _
  rw [formUnescape.eq_def]
  dsimp only
  rw [if_neg (by decide), if_pos rfl, hexPair_escape]

theorem formUnescape_cons {b : UInt8} (hplus : b ≠ char '+') (hpercent : b ≠ char '%') (bs : Bytes) :
  formUnescape (b :: bs) = b :: formUnescape bs
  := by
  rw [formUnescape.eq_def]
  dsimp only
  rw [if_neg hplus, if_neg hpercent]

theorem formUnescape_plus (bs : Bytes) :
  formUnescape (char '+' :: bs) = char ' ' :: formUnescape bs
  := by
  rw [formUnescape.eq_def]
  dsimp only
  rw [if_pos rfl]

end Bytes
