import Shrike.Cbor.RoundTrip
import Mathlib.Data.List.Sort

/-!
# The encoder of DRISL values

The comparison of map keys as the encoder makes it, eight bytes at a time, and the two passes
of the encoder: one that takes the maps as they are, and one that sorts them, for values with
a map out of order.
-/

namespace Shrike.Cbor

/-! ### The order of map keys -/

/-- The comparison of the bytes of two keys one by one, as far as both go. -/
def cmpBytes : Bytes → Bytes → Ordering
  | a :: as, b :: bs => (compare a.toNat b.toNat).then (cmpBytes as bs)
  | _, _ => .eq

/-- The comparison of two keys in words of eight bytes, of which there are `n`, then byte by
byte. -/
def cmpWords : ℕ → Bytes → Bytes → Ordering
  | 0, a, b => cmpBytes a b
  | n + 1, a, b =>
      if a.take 8 ≠ b.take 8 then compare (Bytes.ofBe (a.take 8)) (Bytes.ofBe (b.take 8))
      else cmpWords n (a.drop 8) (b.drop 8)

/-- The order of two map keys in the encoder: by length, then by words. -/
def cborKeyCmp (a b : Bytes) : Ordering :=
  if a.length ≠ b.length then compare a.length b.length else cmpWords (a.length / 8) a b

theorem ofBeFrom_eq (bs : Bytes) (acc : ℕ) :
  Bytes.ofBeFrom acc bs = acc * 256 ^ bs.length + Bytes.ofBe bs
  := by
  induction bs generalizing acc with
  | nil => simp [Bytes.ofBeFrom, Bytes.ofBe]
  | cons b bs ih =>
      rw [Bytes.ofBe, Bytes.ofBeFrom, Bytes.ofBeFrom, ih, ih (0 * 256 + b.toNat), List.length_cons,
        Nat.pow_succ]
      ring

theorem ofBe_cons (b : UInt8) (bs : Bytes) :
  Bytes.ofBe (b :: bs) = b.toNat * 256 ^ bs.length + Bytes.ofBe bs
  := by
  rw [Bytes.ofBe, Bytes.ofBeFrom, ofBeFrom_eq]
  simp

theorem ofBe_lt (bs : Bytes) :
  Bytes.ofBe bs < 256 ^ bs.length
  := by
  induction bs with
  | nil => simp [Bytes.ofBe, Bytes.ofBeFrom]
  | cons b bs ih =>
      have hb := b.toNat_lt
      rw [ofBe_cons, List.length_cons, Nat.pow_succ]
      calc b.toNat * 256 ^ bs.length + Bytes.ofBe bs
          < b.toNat * 256 ^ bs.length + 256 ^ bs.length := by omega
        _ = (b.toNat + 1) * 256 ^ bs.length := by ring
        _ ≤ 256 * 256 ^ bs.length := Nat.mul_le_mul_right _ (by omega)
        _ = 256 ^ bs.length * 256 := Nat.mul_comm _ _

/-- The bytes of the number that a byte string spells are the byte string. -/
theorem be_ofBe (bs : Bytes) :
  Bytes.be bs.length (Bytes.ofBe bs) = bs
  := by
  induction bs with
  | nil => rfl
  | cons b bs ih =>
      have hlt := ofBe_lt bs
      rw [List.length_cons, Bytes.be, ofBe_cons]
      congr 1
      · rw [Nat.mul_comm, Nat.mul_add_div (by positivity), Nat.div_eq_of_lt hlt, Nat.add_zero,
          UInt8.ofNat_toNat]
      · rw [← be_mod bs.length bs.length _ le_rfl, Nat.mul_comm, Nat.mul_add_mod,
          Nat.mod_eq_of_lt hlt, ih]

theorem ofBe_lt_ofBe {a b : Bytes} (hlen : a.length = b.length)
    (h : Bytes.ofBe a < Bytes.ofBe b) :
  a < b
  := by
  have hlt := be_lt h (ofBe_lt b) [] []
  rw [← hlen, be_ofBe, hlen, be_ofBe, List.append_nil, List.append_nil] at hlt
  apply hlt

theorem append_lt_append {a b : Bytes} (x y : Bytes) (hlen : a.length = b.length) (h : a < b) :
  a ++ x < b ++ y
  := by
  induction a generalizing b with
  | nil =>
      obtain rfl := List.length_eq_zero_iff.mp hlen.symm
      exact absurd h (lt_irrefl _)
  | cons c a ih =>
      cases b with
      | nil => cases hlen
      | cons d b =>
          rw [List.cons_append, List.cons_append, List.cons_lt_cons_iff]
          rw [List.cons_lt_cons_iff] at h
          exact h.imp_right fun ⟨heq, hlt⟩ => ⟨heq, ih (Nat.succ.inj hlen) hlt⟩

/-- The comparison of the words and bytes of two keys of the same length is that of the
keys. -/
theorem cmpBytes_spec :
  ∀ {a b : Bytes}, a.length = b.length →
    (cmpBytes a b = .lt → a < b) ∧ (cmpBytes a b = .gt → b < a) ∧ (cmpBytes a b = .eq → a = b)
  | [], [], _ => by simp [cmpBytes]
  | x :: a, y :: b, hlen => by
      obtain ⟨hlt, hgt, heq⟩ := cmpBytes_spec (Nat.succ.inj hlen)
      rw [cmpBytes, List.cons_lt_cons_iff, List.cons_lt_cons_iff, UInt8.lt_iff_toNat_lt,
        UInt8.lt_iff_toNat_lt]
      rcases hxy : compare x.toNat y.toNat with _ | _ | _
      · have hx := compare_lt_iff_lt.mp hxy
        exact ⟨fun _ => .inl hx, fun h => (by cases h), fun h => (by cases h)⟩
      · obtain rfl := UInt8.toNat_inj.mp (compare_eq_iff_eq.mp hxy)
        refine ⟨fun h => .inr ⟨rfl, hlt h⟩, fun h => .inr ⟨rfl, hgt h⟩, fun h => ?_⟩
        rw [heq h]
      · have hy := compare_gt_iff_gt.mp hxy
        exact ⟨fun h => (by cases h), fun _ => .inl hy, fun h => (by cases h)⟩

theorem cmpWords_spec :
  ∀ {n : ℕ} {a b : Bytes}, a.length = b.length →
    (cmpWords n a b = .lt → a < b) ∧ (cmpWords n a b = .gt → b < a)
      ∧ (cmpWords n a b = .eq → a = b)
  | 0, _, _, hlen => cmpBytes_spec hlen
  | n + 1, a, b, hlen => by
      have htake : (a.take 8).length = (b.take 8).length := by
        rw [List.length_take, List.length_take, hlen]
      have ha := List.take_append_drop 8 a
      have hb := List.take_append_drop 8 b
      rw [cmpWords]
      split
      · rename_i hne
        refine ⟨fun h => ?_, fun h => ?_, fun h => ?_⟩
        · rw [← ha, ← hb]
          apply append_lt_append _ _ htake (ofBe_lt_ofBe htake (compare_lt_iff_lt.mp h))
        · rw [← ha, ← hb]
          apply append_lt_append _ _ htake.symm (ofBe_lt_ofBe htake.symm (compare_gt_iff_gt.mp h))
        · have hsame := be_ofBe (a.take 8)
          rw [compare_eq_iff_eq.mp h, htake, be_ofBe] at hsame
          exact absurd hsame.symm hne
      · rename_i hsame
        rw [not_not] at hsame
        obtain ⟨hlt, hgt, heq⟩ := cmpWords_spec (n := n) (a := a.drop 8) (b := b.drop 8)
          (by rw [List.length_drop, List.length_drop, hlen])
        refine ⟨fun h => ?_, fun h => ?_, fun h => ?_⟩
        · rw [← ha, ← hb, hsame]
          apply append_lt_append_left _ (hlt h)
        · rw [← ha, ← hb, hsame]
          apply append_lt_append_left _ (hgt h)
        · rw [← ha, ← hb, hsame, heq h]

/-- The order of map keys that the encoder computes is shorter first, then bytewise. -/
theorem cborKeyCmp_eq_lt {a b : Bytes} :
  cborKeyCmp a b = .lt ↔ keyLt a b = true
  := by
  rw [cborKeyCmp, keyLt]
  split
  · rw [compare_lt_iff_lt, decide_eq_true_iff]
  · rename_i hlen
    obtain ⟨hlt, hgt, heq⟩ := cmpWords_spec (n := a.length / 8) (not_not.mp hlen)
    rw [decide_eq_true_iff]
    refine ⟨hlt, fun h => ?_⟩
    cases hcmp : cmpWords (a.length / 8) a b with
    | lt => rfl
    | eq => exact absurd h (by rw [heq hcmp]; exact lt_irrefl _)
    | gt => exact absurd h (lt_asymm (hgt hcmp))

/-! ### The two passes -/

/-- The encoded entries of a map, one after the other. -/
def joinEntries (entries : List (Bytes × Bytes)) : Bytes :=
  entries.flatMap fun e => putText e.1 ++ e.2

/-- The entries of a map in the order of their keys, entries of the same key as they were. -/
def sortEntries (entries : List (Bytes × Bytes)) : List (Bytes × Bytes) :=
  entries.insertionSort (fun a b => cborKeyCmp a.1 b.1 ≠ .gt)

mutual

/-- The encoding of a value, by the pass that sorts maps. -/
def writeItemSorted : Value → Except Rejected Bytes
  | .array items => do
      let body ← writeItemsSorted items
      .ok (putHead 4 items.length ++ body)
  | .map entries => do
      let body ← writeEntriesSorted entries
      .ok (putHead 5 entries.length
        ++ joinEntries (if entries.IsChain (fun a b => cborKeyCmp a.1 b.1 = .lt) then body
            else sortEntries body))
  | v => writeItem v

/-- The encodings of the items of an array, one after the other. -/
def writeItemsSorted : List Value → Except Rejected Bytes
  | [] => .ok []
  | v :: vs => do
      let head ← writeItemSorted v
      let rest ← writeItemsSorted vs
      .ok (head ++ rest)

/-- The keys of a map with the encodings of their values. -/
def writeEntriesSorted : List (Bytes × Value) → Except Rejected (List (Bytes × Bytes))
  | [] => .ok []
  | (key, v) :: entries => do
      let head ← writeItemSorted v
      let rest ← writeEntriesSorted entries
      .ok ((key, head) :: rest)

end

/-- The encoding of a value: by the pass that takes maps as they are, and if that fails by
the pass that sorts them. It fails only on a float that is not finite. -/
def encodeValue (v : Value) : Except Rejected Bytes :=
  match writeItem v with
  | .ok bytes => .ok bytes
  | .error _ => writeItemSorted v

end Shrike.Cbor
