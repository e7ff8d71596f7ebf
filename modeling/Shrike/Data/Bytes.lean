import Mathlib.Data.List.Lex
import Mathlib.Tactic.Ring

/-!
# Byte strings

Byte strings as lists of bytes with the bytewise lexicographic order, unsigned integers
in big-endian order, and the well-formedness of UTF-8.
-/

instance UInt8.linearOrder : LinearOrder UInt8 where
  le_refl := UInt8.le_refl
  le_trans _ _ _ := UInt8.le_trans
  lt_iff_le_not_ge a b := by
    rw [UInt8.lt_iff_toNat_lt, UInt8.le_iff_toNat_le, UInt8.le_iff_toNat_le]
    omega
  le_antisymm _ _ := UInt8.le_antisymm
  le_total := UInt8.le_total
  toDecidableLE := inferInstance
  toDecidableLT := inferInstance
  toDecidableEq := inferInstance

/-- A byte string, ordered bytewise. -/
abbrev Bytes := List UInt8

instance Bytes.lawfulBEq : LawfulBEq Bytes := inferInstanceAs (LawfulBEq (List UInt8))

instance UInt8.lawfulBEq : LawfulBEq UInt8 := inferInstance

namespace Bytes

/-- The `k` low bytes of `n`, most significant first. -/
def be : ℕ → ℕ → Bytes
  | 0, _ => []
  | k + 1, n => UInt8.ofNat (n / 256 ^ k) :: be k n

/-- The number a byte string spells, most significant byte first, after the digits `acc`. -/
def ofBeFrom (acc : ℕ) : Bytes → ℕ
  | [] => acc
  | b :: bs => ofBeFrom (acc * 256 + b.toNat) bs

/-- The number a byte string spells, most significant byte first. -/
def ofBe (bs : Bytes) : ℕ := ofBeFrom 0 bs

@[simp]
theorem length_be (k n : ℕ) :
  (be k n).length = k
  := by
  induction k with
  | zero => rfl
  | succ k ih => simp [be, ih]

theorem ofBeFrom_be (k n acc : ℕ) :
  ofBeFrom acc (be k n) = acc * 256 ^ k + n % 256 ^ k
  := by
  induction k generalizing acc with
  | zero => simp [be, ofBeFrom, Nat.mod_one]
  | succ k ih =>
      have hdigit : n % 256 ^ (k + 1) = n / 256 ^ k % 256 * 256 ^ k + n % 256 ^ k := by
        rw [Nat.pow_succ, Nat.mod_mul]
        ring
      rw [be, ofBeFrom, ih, hdigit, UInt8.toNat_ofNat']
      ring

/-- Reading back the `k` bytes of a number that fits in them gives the number. -/
theorem ofBe_be {k n : ℕ} (h : n < 256 ^ k) :
  ofBe (be k n) = n
  := by
  rw [ofBe, ofBeFrom_be, Nat.mod_eq_of_lt h]
  simp

/-- Whether `bs` continues a UTF-8 string in which `n` continuation bytes are due, the next
of them between `lo` and `hi`. The ranges are those of the well-formed byte sequences:
no overlong form, no surrogate, nothing above U+10FFFF. -/
def utf8From : ℕ → UInt8 → UInt8 → Bytes → Bool
  | 0, _, _, [] => true
  | _ + 1, _, _, [] => false
  | 0, _, _, b :: bs =>
      if b < 0x80 then utf8From 0 0x80 0xbf bs
      else if b < 0xc2 then false
      else if b < 0xe0 then utf8From 1 0x80 0xbf bs
      else if b = 0xe0 then utf8From 2 0xa0 0xbf bs
      else if b = 0xed then utf8From 2 0x80 0x9f bs
      else if b < 0xf0 then utf8From 2 0x80 0xbf bs
      else if b = 0xf0 then utf8From 3 0x90 0xbf bs
      else if b < 0xf4 then utf8From 3 0x80 0xbf bs
      else if b = 0xf4 then utf8From 3 0x80 0x8f bs
      else false
  | n + 1, lo, hi, b :: bs => lo ≤ b && b ≤ hi && utf8From n 0x80 0xbf bs

/-- Whether `bs` is well-formed UTF-8. -/
def utf8 (bs : Bytes) : Bool := utf8From 0 0x80 0xbf bs

/-- An ASCII string is well-formed UTF-8. -/
theorem utf8_of_ascii {bs : Bytes} (h : ∀ b ∈ bs, b < 0x80) :
  utf8 bs = true
  := by
  rw [utf8]
  induction bs with
  | nil => rfl
  | cons b bs ih =>
      rw [utf8From, if_pos (h b List.mem_cons_self)]
      apply ih
      intro x hx
      apply h x (List.mem_cons_of_mem b hx)

end Bytes
