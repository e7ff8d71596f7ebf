import Shrike.Data.Bytes
import Mathlib.Data.List.Induction
import Mathlib.Data.Nat.Bitwise
import Mathlib.Tactic.Positivity

/-!
# Digits of a fixed number of bits

Numbers that digits of `k` bits spell, the highest first, their digits, and their bits.
-/

namespace Radix

/-! ### Digits -/

/-- The number that digits of `k` bits spell, the highest first. -/
def ofDigits (k : ℕ) (ds : List ℕ) : ℕ := ds.foldl (fun acc d => acc * 2 ^ k + d) 0

section

variable {k : ℕ} {ds : List ℕ}

theorem ofDigits_concat (k : ℕ) (ds : List ℕ) (d : ℕ) :
  ofDigits k (ds ++ [d]) = ofDigits k ds * 2 ^ k + d
  := by rw [ofDigits, List.foldl_append, List.foldl_cons, List.foldl_nil, ofDigits]

/-- The number that digits spell is made up of those of the digits before and after a place. -/
theorem ofDigits_append (k : ℕ) (ds es : List ℕ) :
  ofDigits k (ds ++ es) = ofDigits k ds * 2 ^ (es.length * k) + ofDigits k es
  := by
  induction es using List.reverseRecOn with
  | nil => simp [ofDigits]
  | append_singleton es d ih =>
      rw [← List.append_assoc, ofDigits_concat, ofDigits_concat, ih, List.length_append,
        List.length_singleton, Nat.succ_mul, pow_add]
      ring

theorem ofDigits_lt (h : ∀ d ∈ ds, d < 2 ^ k) :
  ofDigits k ds < 2 ^ (ds.length * k)
  := by
  induction ds using List.reverseRecOn with
  | nil => simp [ofDigits]
  | append_singleton ds d ih =>
      have ih := ih fun x hx => h x (List.mem_append_left _ hx)
      have hd := h d (List.mem_append_right _ List.mem_cons_self)
      rw [ofDigits_concat, List.length_append, List.length_singleton, Nat.succ_mul, pow_add]
      calc ofDigits k ds * 2 ^ k + d < ofDigits k ds * 2 ^ k + 2 ^ k := by omega
        _ = (ofDigits k ds + 1) * 2 ^ k := by ring
        _ ≤ 2 ^ (ds.length * k) * 2 ^ k := Nat.mul_le_mul_right _ ih

/-- The digits of the number that digits spell are the digits. -/
theorem digits_ofDigits (h : ∀ d ∈ ds, d < 2 ^ k) :
  (List.range ds.length).map (fun i => ofDigits k ds / 2 ^ ((ds.length - 1 - i) * k) % 2 ^ k) = ds
  := by
  induction ds using List.reverseRecOn with
  | nil => rfl
  | append_singleton ds d ih =>
      have ih := ih fun x hx => h x (List.mem_append_left _ hx)
      have hd := h d (List.mem_append_right _ List.mem_cons_self)
      have hhigh : (ofDigits k ds * 2 ^ k + d) / 2 ^ k = ofDigits k ds := by
        rw [Nat.mul_comm, Nat.mul_add_div (by positivity), Nat.div_eq_of_lt hd, Nat.add_zero]
      rw [List.length_append, List.length_singleton, List.range_succ, List.map_append,
        List.map_singleton, ofDigits_concat]
      congr 1
      · refine Eq.trans (List.map_congr_left ?_) ih
        intro i hi
        have hi := List.mem_range.mp hi
        rw [show ds.length + 1 - 1 - i = (ds.length - 1 - i) + 1 by omega, Nat.succ_mul,
          Nat.add_comm _ k, pow_add, ← Nat.div_div_eq_div_mul, hhigh]
      · rw [show (ds.length + 1 - 1 - ds.length) * k = 0 by simp, pow_zero, Nat.div_one,
          Nat.mul_add_mod_self_right, Nat.mod_eq_of_lt hd]

end

/-! ### Bits -/

/-- The `k` lowest bits of a number, the highest first. -/
def bits (k n : ℕ) : List Bool := (List.range k).map fun i => n.testBit (k - 1 - i)

theorem length_bits (k n : ℕ) :
  (bits k n).length = k
  := by rw [bits, List.length_map, List.length_range]

/-- The bits of a number are those of its high part and those of its low part. -/
theorem bits_add {m k x d : ℕ} (hd : d < 2 ^ k) :
  bits (m + k) (x * 2 ^ k + d) = bits m x ++ bits k d
  := by
  rw [bits, List.range_add, List.map_append, List.map_map]
  congr 1
  · apply List.map_congr_left
    intro i hi
    have hi := List.mem_range.mp hi
    rw [Nat.mul_comm, Nat.testBit_two_pow_mul_add _ hd, if_neg (by omega)]
    congr 1
    omega
  · apply List.map_congr_left
    intro i hi
    have hi := List.mem_range.mp hi
    rw [Function.comp_apply, Nat.mul_comm, Nat.testBit_two_pow_mul_add _ hd, if_pos (by omega)]
    congr 1
    omega

/-- Zeros are added at the end of the bits of a number that is multiplied. -/
theorem bits_shift (m k x : ℕ) :
  bits (m + k) (x * 2 ^ k) = bits m x ++ List.replicate k false
  := by
  have hzero : bits k 0 = List.replicate k false := by
    rw [bits, List.eq_replicate_iff]
    simp
  rw [← hzero, ← bits_add (by positivity), Nat.add_zero]

/-- The bits of digits are those of the number that they spell. -/
theorem flatMap_bits {k : ℕ} {ds : List ℕ} (h : ∀ d ∈ ds, d < 2 ^ k) :
  ds.flatMap (bits k) = bits (ds.length * k) (ofDigits k ds)
  := by
  induction ds using List.reverseRecOn with
  | nil => rw [List.flatMap_nil, List.length_nil, Nat.zero_mul, bits, List.range_zero, List.map_nil]
  | append_singleton ds d ih =>
      have ih := ih fun x hx => h x (List.mem_append_left _ hx)
      have hd := h d (List.mem_append_right _ List.mem_cons_self)
      rw [List.flatMap_append, ih, List.flatMap_singleton, ofDigits_concat, List.length_append,
        List.length_singleton, Nat.succ_mul, bits_add hd]

/-- The first bits of a number are those of its high part. -/
theorem take_bits (m k n : ℕ) :
  (bits (m + k) n).take m = bits m (n / 2 ^ k)
  := by
  have hsplit := bits_add (m := m) (x := n / 2 ^ k) (Nat.mod_lt n (show 0 < 2 ^ k by positivity))
  rw [Nat.div_add_mod'] at hsplit
  rw [hsplit, List.take_left' (length_bits m _)]

/-- A number that fits in bits is determined by them. -/
theorem eq_of_bits {k x y : ℕ} (h : bits k x = bits k y) (hx : x < 2 ^ k) (hy : y < 2 ^ k) :
  x = y
  := by
  apply Nat.eq_of_testBit_eq
  intro i
  by_cases hi : i < k
  · have hget := congrArg (fun l => l[k - 1 - i]?) h
    simp only [bits, List.getElem?_map, List.getElem?_range (show k - 1 - i < k by omega)] at hget
    simpa [show k - 1 - (k - 1 - i) = i by omega] using hget
  · rw [Nat.testBit_lt_two_pow (hx.trans_le (Nat.pow_le_pow_right (by decide) (by omega))),
      Nat.testBit_lt_two_pow (hy.trans_le (Nat.pow_le_pow_right (by decide) (by omega)))]

/-! ### Bytes -/

/-- The bits of a byte string, the highest of each byte first. -/
def bitsOfBytes (bs : Bytes) : List Bool := bs.flatMap fun b => bits 8 b.toNat

theorem ofBe_eq_ofDigits (bs : Bytes) :
  Bytes.ofBe bs = ofDigits 8 (bs.map UInt8.toNat)
  := by
  have hfrom : ∀ (acc : ℕ) (bs : Bytes),
      Bytes.ofBeFrom acc bs = (bs.map UInt8.toNat).foldl (fun acc d => acc * 2 ^ 8 + d) acc := by
    intro acc bs
    induction bs generalizing acc with
    | nil => rfl
    | cons b bs ih =>
        rw [Bytes.ofBeFrom, ih]
        rfl
  exact hfrom 0 bs

theorem bitsOfBytes_eq (bs : Bytes) :
  bitsOfBytes bs = bits (bs.length * 8) (Bytes.ofBe bs)
  := by
  have hlt : ∀ d ∈ bs.map UInt8.toNat, d < 2 ^ 8 := by
    intro d hd
    obtain ⟨b, -, rfl⟩ := List.mem_map.mp hd
    exact b.toNat_lt
  have hbits := flatMap_bits hlt
  rw [List.length_map, ← ofBe_eq_ofDigits, List.flatMap_map] at hbits
  exact hbits

end Radix
