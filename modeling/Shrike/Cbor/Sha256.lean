import Shrike.Cbor.Encode
import Shrike.Data.Radix
import Shrike.Data.Regions

/-!
# Digests and key heights

The blocks that are fed to the compression function of SHA-256 are those of the padded message, and
the height of a key is read off its digest a word at a time. The compression function is given.
-/

namespace Shrike.Cbor

open Bytes Radix

/-! ### The digest -/

/-- Write bytes into a buffer. It is an error if they do not fit. -/
def writeAt (buf : Bytes) (start : ℕ) (bs : Bytes) : Option Bytes :=
  if start + bs.length ≤ buf.length then
    some (buf.take start ++ bs ++ buf.drop (start + bs.length))
  else none

/-- The last blocks of a message: its tail, padded in a buffer of two blocks of which one is used if
the tail is short. -/
def lastBlocks (len : ℕ) (tail : Bytes) : Option (List Bytes) := do
  let last := List.replicate 128 0
  let used := if tail.length < 56 then 1 else 2
  let padded ← writeAt last 0 tail
  let padded ← writeAt padded tail.length [0x80]
  let bits := len % 2 ^ 64 * 8 % 2 ^ 64
  let padded ← writeAt padded (used * 64 - 8) (be 8 bits)
  some ((padded.asChunks 64).take used)

/-- The state after the blocks of some data are compressed into it. -/
def compressAll {σ : Type} (compress : σ → Bytes → σ) (state : σ) (data : Bytes) : Option σ := do
  let state := (data.asChunks 64).foldl compress state
  let last ← lastBlocks data.length (data.drop (data.length / 64 * 64))
  some (last.foldl compress state)

/-- The words of the state. -/
abbrev HashState := Vector UInt32 8

/-- The state before any block. -/
def initialState : HashState :=
  ⟨#[0x6a09e667, 0xbb67ae85, 0x3c6ef372, 0xa54ff53a, 0x510e527f, 0x9b05688c, 0x1f83d9ab,
    0x5be0cd19], rfl⟩

/-- The bytes of the words of a state. -/
def HashState.bytes (state : HashState) : Digest :=
  ⟨state.toList.flatMap fun word => be 4 word.toNat, by
    rw [List.length_flatMap_of_forall _ fun word _ => length_be 4 word.toNat, Vector.length_toList]⟩

/-- The digest of some data. -/
def sha256With (compress : HashState → Bytes → HashState) (data : Bytes) : Option Digest :=
  (compressAll compress initialState data).map HashState.bytes

/-! ### Padding -/

/-- A message, padded as SHA-256 has it, with the given number of zeros. -/
def paddedMessage (data : Bytes) (zeros : ℕ) : Bytes :=
  data ++ 0x80 :: List.replicate zeros 0 ++ be 8 (8 * data.length)

section Padding

variable {data tail : Bytes}

/-- Bytes take the place of as many bytes of the buffer. -/
theorem writeAt_eq {buf a b c bs : Bytes} {start : ℕ} (hbuf : buf = a ++ b ++ c)
    (hstart : start = a.length) (hlength : b.length = bs.length) :
  writeAt buf start bs = some (a ++ bs ++ c)
  := by
  have hend : start + bs.length = (a ++ b).length := by rw [List.length_append, hstart, hlength]
  rw [writeAt, if_pos, hend, hbuf, List.drop_left, List.append_assoc a b c, hstart, List.take_left]
  rw [hend, hbuf]
  simp only [List.length_append]
  omega

/-- The zeros of the padding are as many as fill up the last block. -/
theorem isLeast_zeros (len : ℕ) :
  IsLeast {zeros | 64 ∣ len + 1 + zeros + 8} ((119 - len % 64) % 64)
  := by
  constructor
  · show 64 ∣ len + 1 + (119 - len % 64) % 64 + 8
    omega
  · intro zeros (hzeros : 64 ∣ len + 1 + zeros + 8)
    omega

/-- The last blocks are the tail with its padding. -/
theorem lastBlocks_eq (len : ℕ) (htail : tail.length < 64) :
  ∃ last, lastBlocks len tail = some last ∧ (∀ block ∈ last, block.length = 64)
    ∧ last.flatten = tail ++ 0x80 :: List.replicate ((119 - tail.length) % 64) 0
      ++ be 8 (len % 2 ^ 64 * 8 % 2 ^ 64)
  := by
  obtain ⟨used, hused, hle, hzeros⟩ : ∃ used, (if tail.length < 56 then 1 else 2) = used ∧ used ≤ 2
      ∧ tail.length + 1 + (119 - tail.length) % 64 + 8 = 64 * used := by
    split_ifs
    · exact ⟨1, rfl, by decide, by omega⟩
    · exact ⟨2, rfl, le_rfl, by omega⟩
  generalize hbits : len % 2 ^ 64 * 8 % 2 ^ 64 = bits
  generalize (119 - tail.length) % 64 = zeros at hzeros ⊢
  have hfirst : writeAt (List.replicate 128 0) 0 tail
      = some ([] ++ tail ++ List.replicate (128 - tail.length) 0) := by
    refine writeAt_eq (b := List.replicate tail.length 0) ?_ rfl (List.length_replicate)
    rw [List.nil_append, ← List.replicate_add]
    congr 1
    omega
  have hsecond : writeAt ([] ++ tail ++ List.replicate (128 - tail.length) 0) tail.length [0x80]
      = some (tail ++ [0x80] ++ List.replicate (127 - tail.length) 0) := by
    refine writeAt_eq (b := [0]) ?_ rfl rfl
    rw [List.nil_append, List.append_assoc, List.singleton_append, ← List.replicate_succ]
    congr 2
    omega
  have hthird : writeAt (tail ++ [0x80] ++ List.replicate (127 - tail.length) 0) (used * 64 - 8)
      (be 8 bits) = some (tail ++ [0x80] ++ List.replicate zeros 0 ++ be 8 bits
        ++ List.replicate (128 - 64 * used) 0) := by
    have hzero : List.replicate (127 - tail.length) (0 : UInt8) = List.replicate zeros 0
        ++ List.replicate 8 0 ++ List.replicate (128 - 64 * used) 0 := by
      rw [← List.replicate_add, ← List.replicate_add]
      congr 1
      omega
    refine writeAt_eq (b := List.replicate 8 0) ?_ ?_ ?_
    · rw [hzero]
      simp only [List.append_assoc]
    · simp only [List.length_append, List.length_singleton, List.length_replicate]
      omega
    · rw [List.length_replicate, length_be]
  have hlength : (tail ++ [0x80] ++ List.replicate zeros 0 ++ be 8 bits).length = 64 * used := by
    simp only [List.length_append, List.length_singleton, List.length_replicate, length_be]
    omega
  have hpadded : (tail ++ [0x80] ++ List.replicate zeros 0 ++ be 8 bits
      ++ List.replicate (128 - 64 * used) 0).length = 128 := by
    rw [List.length_append, hlength, List.length_replicate]
    omega
  refine ⟨((tail ++ [0x80] ++ List.replicate zeros 0 ++ be 8 bits
    ++ List.replicate (128 - 64 * used) 0).asChunks 64).take used, ?_, ?_, ?_⟩
  · rw [lastBlocks, hused, hbits]
    simp only [hfirst, hsecond, hthird, Option.bind_eq_bind, Option.bind_some]
  · intro block hblock
    exact List.length_of_mem_asChunks (List.mem_of_mem_take hblock)
  · rw [List.flatten_take_asChunks (by omega), ← hlength, List.take_left]
    simp only [List.append_assoc, List.cons_append, List.nil_append]

/-- The blocks that are compressed are those of the padded message. -/
theorem compressAll_eq (hdata : data.length < 2 ^ 61) :
  ∃ blocks : List Bytes, blocks.flatten = paddedMessage data ((119 - data.length % 64) % 64)
    ∧ (∀ block ∈ blocks, block.length = 64)
    ∧ ∀ {σ : Type} (compress : σ → Bytes → σ) (state : σ),
      compressAll compress state data = some (blocks.foldl compress state)
  := by
  have htail : (data.drop (data.length / 64 * 64)).length = data.length % 64 := by
    rw [List.length_drop]
    omega
  have hshort : (data.drop (data.length / 64 * 64)).length < 64 := htail ▸ Nat.mod_lt _ (by decide)
  obtain ⟨last, hlast, hblocks, hflatten⟩ := lastBlocks_eq data.length hshort
  have hwhole : (data.asChunks 64).flatten = data.take (data.length / 64 * 64) := by
    have htake := List.flatten_take_asChunks (k := 64) (le_refl (data.length / 64))
    rwa [List.take_of_length_le, Nat.mul_comm] at htake
    rw [List.asChunks, List.length_map, List.length_range]
  refine ⟨data.asChunks 64 ++ last, ?_, ?_, ?_⟩
  · have hbits : data.length % 2 ^ 64 * 8 % 2 ^ 64 = 8 * data.length := by omega
    rw [List.flatten_append, hwhole, hflatten, htail, hbits, ← List.append_assoc,
      ← List.append_assoc, List.take_append_drop, paddedMessage]
  · intro block hblock
    rcases List.mem_append.mp hblock with hblock | hblock
    · exact List.length_of_mem_asChunks hblock
    · exact hblocks block hblock
  · intro σ compress state
    rw [compressAll, hlast, List.foldl_append]
    rfl

end Padding

/-! ### Heights -/

/-- The product of two bytes, if it fits in a byte. -/
def checkedMul (a b : UInt8) : Option UInt8 := if a.toNat * b.toNat < 256 then some (a * b) else none

/-- The sum of two bytes, if it fits in a byte. -/
def checkedAdd (a b : UInt8) : Option UInt8 := if a.toNat + b.toNat < 256 then some (a + b) else none

/-- How many of the highest bits of a number of the given number of bits are zero. -/
def leadingZeros : ℕ → ℕ → ℕ
  | 0, _ => 0
  | bits + 1, n => if n.testBit bits then 0 else leadingZeros bits n + 1

/-- The height that a digest gives, whose words start at the given indices. -/
def heightFromWords (h : Bytes) : List ℕ → Option UInt8
  | [] => some 128
  | i :: is =>
      let word := ofBe ((h.drop i).take 8)
      if word = 0 then heightFromWords h is
      else do
        let base ← checkedMul (UInt8.ofNat i) 4
        checkedAdd base (UInt8.ofNat (leadingZeros 64 word) / 2)

/-- The height that a digest gives. -/
def heightFromHash (h : Digest) : Option UInt8 := heightFromWords h.val [0, 8, 16, 24]

/-- The height of a key. -/
def heightForKeyWith (compress : HashState → Bytes → HashState) (key : Bytes) : Option UInt8 :=
  (sha256With compress key).bind heightFromHash

/-- How many pairs of zeros bits start with. -/
def leadingZeroPairs : List Bool → ℕ
  | false :: false :: bits => leadingZeroPairs bits + 1
  | _ => 0

/-- The pairs of zeros are half of the zeros. -/
theorem leadingZeroPairs_eq :
  ∀ bits : List Bool, leadingZeroPairs bits = (bits.takeWhile (! ·)).length / 2
  | [] => rfl
  | [false] => rfl
  | true :: _ => by simp [leadingZeroPairs]
  | false :: true :: _ => by simp [leadingZeroPairs]
  | false :: false :: bits => by
      have ih := leadingZeroPairs_eq bits
      rw [leadingZeroPairs, ih, List.takeWhile_cons_of_pos rfl, List.takeWhile_cons_of_pos rfl,
        List.length_cons, List.length_cons]
      omega

theorem bits_succ (k n : ℕ) :
  bits (k + 1) n = n.testBit k :: bits k n
  := by
  rw [bits, List.range_succ_eq_map, List.map_cons, List.map_map, bits]
  congr 1
  apply List.map_congr_left
  intro i _
  show n.testBit (k + 1 - 1 - (i + 1)) = n.testBit (k - 1 - i)
  congr 1
  omega

theorem leadingZeros_eq (k n : ℕ) :
  leadingZeros k n = ((bits k n).takeWhile (! ·)).length
  := by
  induction k with
  | zero => rfl
  | succ k ih =>
      rw [leadingZeros, bits_succ, List.takeWhile_cons, ih]
      cases n.testBit k with
      | true => rfl
      | false => rfl

theorem leadingZeros_lt {k n : ℕ} (hn : n ≠ 0) (hlt : n < 2 ^ k) :
  leadingZeros k n < k
  := by
  induction k with
  | zero =>
      rw [pow_zero] at hlt
      omega
  | succ k ih =>
      rw [leadingZeros]
      split
      · exact Nat.succ_pos k
      · rename_i hbit
        apply Nat.succ_lt_succ
        apply ih
        by_contra hle
        exact hbit (Nat.testBit_of_two_pow_le_and_two_pow_add_one_gt (not_lt.mp hle) hlt)

/-- The height of the words of a digest that are left is that of their bits. -/
theorem heightFromWords_eq (h : Digest) {n j : ℕ} (hj : j + n = 4) :
  (heightFromWords h.val (List.range' (8 * j) n 8)).map UInt8.toNat
    = some (32 * j + leadingZeroPairs (bitsOfBytes (h.val.drop (8 * j))))
  := by
  have hlength := h.property
  induction n generalizing j with
  | zero =>
      obtain rfl : j = 4 := by omega
      rw [List.drop_of_length_le (by omega)]
      rfl
  | succ n ih =>
      have hword : ((h.val.drop (8 * j)).take 8).length = 8 := by
        rw [List.length_take, List.length_drop]
        omega
      have hbits := bitsOfBytes_eq ((h.val.drop (8 * j)).take 8)
      have hlt := ofBe_lt ((h.val.drop (8 * j)).take 8)
      rw [hword] at hbits hlt
      rw [show 256 = 2 ^ 8 by rfl, ← pow_mul] at hlt
      have hsplit : bitsOfBytes (h.val.drop (8 * j))
          = bits 64 (ofBe ((h.val.drop (8 * j)).take 8))
            ++ bitsOfBytes (h.val.drop (8 * (j + 1))) := by
        rw [← hbits, bitsOfBytes, bitsOfBytes, bitsOfBytes, ← List.flatMap_append, Nat.mul_succ,
          ← List.drop_drop, List.take_append_drop]
      rw [List.range'_succ, heightFromWords, hsplit, leadingZeroPairs_eq]
      generalize ofBe ((h.val.drop (8 * j)).take 8) = word at hlt ⊢
      split
      · rename_i hzero
        have hfalse : bits 64 word = List.replicate 64 false := by
          rw [hzero]
          decide
        have ih := ih (j := j + 1) (by omega)
        rw [show 8 * j + 8 = 8 * (j + 1) by rfl, ih, hfalse, leadingZeroPairs_eq, List.takeWhile_append_of_pos (by simp),
          List.length_append, List.length_replicate]
        congr 1
        omega
      · rename_i hzero
        have hzeros : leadingZeros 64 word < 64 := leadingZeros_lt hzero hlt
        rw [List.takeWhile_append, if_neg, ← leadingZeros_eq]
        · have hbase : (UInt8.ofNat (8 * j)).toNat = 8 * j := by
            rw [UInt8.toNat_ofNat', Nat.mod_eq_of_lt (by omega)]
          have hfour : (4 : UInt8).toNat = 4 := rfl
          have hmul : (UInt8.ofNat (8 * j) * 4).toNat = 32 * j := by
            rw [UInt8.toNat_mul, hbase, hfour, Nat.mod_eq_of_lt (by omega)]
            omega
          have hhalf : (UInt8.ofNat (leadingZeros 64 word) / 2).toNat = leadingZeros 64 word / 2 := by
            rw [UInt8.toNat_div, UInt8.toNat_ofNat', Nat.mod_eq_of_lt (by omega)]
            rfl
          rw [checkedMul, if_pos (by rw [hbase, hfour]; omega), Option.bind_eq_bind,
            Option.bind_some, checkedAdd, if_pos (by rw [hmul, hhalf]; omega), Option.map_some,
            UInt8.toNat_add, hmul, hhalf, Nat.mod_eq_of_lt (by omega)]
        · rw [← leadingZeros_eq, length_bits]
          omega

/-- The height of a digest is the number of pairs of zeros that it starts with. -/
theorem heightFromHash_eq (h : Digest) :
  (heightFromHash h).map UInt8.toNat = some (leadingZeroPairs (bitsOfBytes h.val))
  := by
  have hheight := heightFromWords_eq h (n := 4) (j := 0) rfl
  rw [Nat.mul_zero, List.drop_zero, Nat.zero_add] at hheight
  exact hheight

/-- A digest has 128 pairs of bits. -/
theorem leadingZeroPairs_le (h : Digest) :
  leadingZeroPairs (bitsOfBytes h.val) ≤ 128
  := by
  have hle := (List.takeWhile_prefix (l := bits (32 * 8) (ofBe h.val)) (! ·)).length_le
  rw [length_bits] at hle
  rw [leadingZeroPairs_eq, bitsOfBytes_eq, h.property]
  omega

/-- The digests and heights that the compression function gives. -/
@[reducible]
def hashingWith (compress : HashState → Bytes → HashState) : Hashing where
  sha256 data := (sha256With compress data).getD (Digest.fill 0)
  heightForKey key := ((heightForKeyWith compress key).map UInt8.toNat).getD 0
  heightForKey_le key := by
    rw [heightForKeyWith]
    cases sha256With compress key with
    | none => exact Nat.zero_le _
    | some h =>
        rw [Option.bind_some, heightFromHash_eq]
        exact leadingZeroPairs_le h

theorem heightForKey_hashingWith (compress : HashState → Bytes → HashState) {key : Bytes}
    (hkey : key.length < 2 ^ 61) :
  (hashingWith compress).heightForKey key
    = leadingZeroPairs (bitsOfBytes ((hashingWith compress).sha256 key).val)
  := by
  obtain ⟨blocks, -, -, hcompress⟩ := compressAll_eq hkey
  have hdigest : sha256With compress key
      = some (HashState.bytes (blocks.foldl compress initialState)) := by
    rw [sha256With, hcompress, Option.map_some]
  show ((heightForKeyWith compress key).map UInt8.toNat).getD 0
    = leadingZeroPairs (bitsOfBytes ((sha256With compress key).getD (Digest.fill 0)).val)
  rw [heightForKeyWith, hdigest, Option.bind_some, heightFromHash_eq, Option.getD_some,
    Option.getD_some]

/-- The blocks of the padded message are what is compressed for a digest, and the height of a key is
the number of pairs of zeros that its digest starts with, which are 128 if it is zero. -/
theorem digests_and_heights (data : Bytes) (hdata : data.length < 2 ^ 61) :
  (∃ zeros, IsLeast {n | 64 ∣ data.length + 1 + n + 8} zeros
      ∧ ∃ blocks : List Bytes, blocks.flatten = paddedMessage data zeros
        ∧ (∀ block ∈ blocks, block.length = 64)
        ∧ (∀ {σ : Type} (compress : σ → Bytes → σ) (state : σ),
          compressAll compress state data = some (blocks.foldl compress state))
        ∧ ∀ compress : HashState → Bytes → HashState, ∃ height,
          heightForKeyWith compress data = some height
            ∧ height.toNat = leadingZeroPairs
              (bitsOfBytes (HashState.bytes (blocks.foldl compress initialState)).val))
    ∧ (∀ h : Digest, (heightFromHash h).map UInt8.toNat
      = some (leadingZeroPairs (bitsOfBytes h.val)))
    ∧ heightFromHash (Digest.fill 0) = some 128
  := by
  obtain ⟨blocks, hflatten, hlength, hcompress⟩ := compressAll_eq hdata
  refine ⟨⟨_, isLeast_zeros data.length, blocks, hflatten, hlength, hcompress, ?_⟩,
    heightFromHash_eq, by decide⟩
  intro compress
  rw [heightForKeyWith, sha256With, hcompress, Option.map_some, Option.bind_some]
  exact Option.map_eq_some_iff.mp (heightFromHash_eq _)

theorem digests_and_heights_short :
  ([0x61, 0x73, 0x64, 0x66] : Bytes).length < 2 ^ 61
    ∧ ∃ zeros, IsLeast {n | 64 ∣ ([0x61, 0x73, 0x64, 0x66] : Bytes).length + 1 + n + 8} zeros
  := ⟨by decide, (digests_and_heights [0x61, 0x73, 0x64, 0x66] (by decide)).1.imp fun _ h => h.1⟩

end Shrike.Cbor
