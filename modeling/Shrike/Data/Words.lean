import Shrike.Data.Bytes

/-!
# Words

Numbers that bytes spell with the lowest first, the operations on them byte by byte, and how many of
their lowest bits are zero.
-/

namespace Bytes

/-! ### Bytes, the lowest first -/

/-- The number that bytes spell, the lowest first. -/
def ofLe : Bytes → ℕ
  | [] => 0
  | b :: bs => b.toNat + 256 * ofLe bs

/-- The lowest `k` bytes of a number, the lowest first. -/
def le : ℕ → ℕ → Bytes
  | 0, _ => []
  | k + 1, n => UInt8.ofNat n :: le k (n / 256)

theorem length_le (k n : ℕ) :
  (le k n).length = k
  := by
  induction k generalizing n with
  | zero => rfl
  | succ k ih => rw [le, List.length_cons, ih]

theorem ofLe_lt (bs : Bytes) :
  ofLe bs < 256 ^ bs.length
  := by
  induction bs with
  | nil => decide
  | cons b bs ih =>
      have hb := b.toNat_lt
      rw [ofLe, List.length_cons, Nat.pow_succ]
      omega

/-- A number that fits in `k` bytes is what they spell. -/
theorem ofLe_le {k n : ℕ} (h : n < 256 ^ k) :
  ofLe (le k n) = n
  := by
  induction k generalizing n with
  | zero =>
      rw [Nat.pow_zero, Nat.lt_one_iff] at h
      rw [h]
      rfl
  | succ k ih =>
      rw [Nat.pow_succ] at h
      rw [le, ofLe, ih (Nat.div_lt_of_lt_mul (by omega)), UInt8.toNat_ofNat']
      omega

theorem ofLe_append (bs bs' : Bytes) :
  ofLe (bs ++ bs') = ofLe bs + 256 ^ bs.length * ofLe bs'
  := by
  induction bs with
  | nil => simp [ofLe]
  | cons b bs ih =>
      rw [List.cons_append, ofLe, ofLe, ih, List.length_cons, Nat.pow_succ]
      ring

theorem ofLe_replicate_zero (n : ℕ) :
  ofLe (List.replicate n 0) = 0
  := by
  induction n with
  | zero => rfl
  | succ n ih =>
      rw [List.replicate_succ, ofLe, ih]
      rfl

/-- The lowest bytes of a number that bytes spell. -/
theorem le_ofLe {k : ℕ} {bs : Bytes} (h : bs.length = k) :
  le k (ofLe bs) = bs
  := by
  subst h
  induction bs with
  | nil => rfl
  | cons b bs ih =>
      have hb := b.toNat_lt
      rw [List.length_cons, le, ofLe]
      congr 1
      · apply UInt8.toNat_inj.mp
        rw [UInt8.toNat_ofNat']
        omega
      · rw [show (b.toNat + 256 * ofLe bs) / 256 = ofLe bs by omega, ih]

/-! ### Operations byte by byte -/

section

variable {a b x y : ℕ}

theorem op_byte {op : ℕ → ℕ → ℕ}
    (hmod : ∀ m n, op m n % 2 ^ 8 = op (m % 2 ^ 8) (n % 2 ^ 8))
    (hdiv : ∀ m n, op m n / 2 ^ 8 = op (m / 2 ^ 8) (n / 2 ^ 8)) (ha : a < 256) (hb : b < 256) :
  op (a + 256 * x) (b + 256 * y) = op a b + 256 * op x y
  := by
  have hlow := hmod (a + 256 * x) (b + 256 * y)
  have hhigh := hdiv (a + 256 * x) (b + 256 * y)
  rw [show (a + 256 * x) % 2 ^ 8 = a by omega, show (b + 256 * y) % 2 ^ 8 = b by omega] at hlow
  rw [show (a + 256 * x) / 2 ^ 8 = x by omega, show (b + 256 * y) / 2 ^ 8 = y by omega] at hhigh
  rw [← hlow, ← hhigh]
  omega

theorem or_byte (ha : a < 256) (hb : b < 256) :
  (a + 256 * x) ||| (b + 256 * y) = (a ||| b) + 256 * (x ||| y)
  := op_byte (fun _ _ => Nat.or_mod_two_pow) (fun _ _ => Nat.or_div_two_pow) ha hb

theorem xor_byte (ha : a < 256) (hb : b < 256) :
  (a + 256 * x) ^^^ (b + 256 * y) = (a ^^^ b) + 256 * (x ^^^ y)
  := op_byte (fun _ _ => Nat.xor_mod_two_pow) (fun _ _ => Nat.xor_div_two_pow) ha hb

theorem and_byte (ha : a < 256) (hb : b < 256) :
  (a + 256 * x) &&& (b + 256 * y) = (a &&& b) + 256 * (x &&& y)
  := op_byte (fun _ _ => Nat.and_mod_two_pow) (fun _ _ => Nat.and_div_two_pow) ha hb

end

/-- Subtraction of numbers of `k` bytes, which wraps. -/
def wrappingSub (k a b : ℕ) : ℕ := (a + 256 ^ k - b) % 256 ^ k

section

variable {k a b x y : ℕ}

/-- Without a borrow, the lowest bytes are subtracted apart from the others. -/
theorem wrappingSub_byte (ha : a < 256) (hab : b ≤ a) (hy : y ≤ 256 ^ k) :
  wrappingSub (k + 1) (a + 256 * x) (b + 256 * y) = (a - b) + 256 * wrappingSub k x y
  := by
  have hsplit : a + 256 * x + 256 * 256 ^ k - (b + 256 * y) = (a - b) + 256 * (x + 256 ^ k - y) := by
    omega
  rw [wrappingSub, wrappingSub, Nat.pow_succ', hsplit, Nat.mod_mul,
    show ((a - b) + 256 * (x + 256 ^ k - y)) % 256 = a - b by omega,
    show ((a - b) + 256 * (x + 256 ^ k - y)) / 256 = x + 256 ^ k - y by omega]

/-- The lowest byte of a difference depends on the lowest bytes only. -/
theorem wrappingSub_mod (hb : b < 256) (hy : y < 256 ^ k) :
  wrappingSub (k + 1) (a + 256 * x) (b + 256 * y) % 256 = (a + 256 - b) % 256
  := by
  rw [wrappingSub, Nat.pow_succ', Nat.mod_mul_right_mod]
  omega

end

/-! ### Zero bits -/

/-- How many of the lowest bits of a number of the given number of bits are zero. -/
def trailingZeros : ℕ → ℕ → ℕ
  | 0, _ => 0
  | bits + 1, n => if n % 2 = 1 then 0 else trailingZeros bits (n / 2) + 1

theorem trailingZeros_byte (bits n : ℕ) :
  trailingZeros (bits + 8) (256 * n) = trailingZeros bits n + 8
  := by
  have hstep : ∀ bits n, trailingZeros (bits + 1) (2 * n) = trailingZeros bits n + 1 := by
    intro bits n
    rw [trailingZeros, if_neg (by omega), show 2 * n / 2 = n by omega]
  rw [show 256 * n = 2 * (2 * (2 * (2 * (2 * (2 * (2 * (2 * n))))))) by ring]
  rw [hstep, hstep, hstep, hstep, hstep, hstep, hstep, hstep]

theorem trailingZeros_high_bit {bits n : ℕ} (h : n % 256 = 128) :
  trailingZeros (bits + 8) n = 7
  := by
  rw [trailingZeros, trailingZeros, trailingZeros, trailingZeros, trailingZeros, trailingZeros,
    trailingZeros, trailingZeros]
  rw [if_neg (by omega), if_neg (by omega), if_neg (by omega), if_neg (by omega), if_neg (by omega),
    if_neg (by omega), if_neg (by omega), if_pos (by omega)]

end Bytes
