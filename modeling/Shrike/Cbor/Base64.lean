import Shrike.Cbor.CidText
import Shrike.Data.Radix

/-!
# Base64

The text of a byte string in an alphabet, and what is read back of it. Base64 is read without
padding, with, or with part of it, and whatever the bits that belong to no byte.
-/

namespace Shrike.Cbor

open Bytes Radix

/-! ### Texts in an alphabet -/

/-- An alphabet with a character for each number of `k` bits, and no character twice. -/
structure IsAlphabet (k : ℕ) (alphabet : Bytes) : Prop where
  length : alphabet.length = 2 ^ k
  idxOf : ∀ d < 2 ^ k, alphabet.idxOf? (alphabet.getD d 0) = some d

/-- The characters of digits. -/
def charsOf (alphabet : Bytes) (ds : List ℕ) : Bytes := ds.map fun d => alphabet.getD d 0

section Alphabet

variable {k : ℕ} {alphabet text data : Bytes} {ds : List ℕ}

theorem IsAlphabet.idxOf_eq_some (h : IsAlphabet k alphabet) {c : UInt8} {d : ℕ} :
  alphabet.idxOf? c = some d ↔ d < 2 ^ k ∧ alphabet.getD d 0 = c
  := by
  constructor
  · intro hd
    obtain ⟨hlt, hget, -⟩ := List.idxOf?_eq_some_iff.mp hd
    refine ⟨h.length ▸ hlt, ?_⟩
    rw [List.getD_eq_getElem _ _ hlt, hget]
  · rintro ⟨hlt, rfl⟩
    exact h.idxOf d hlt

/-- The digits of a text are those of its characters. -/
theorem IsAlphabet.mapM_eq_some (h : IsAlphabet k alphabet) :
  text.mapM (fun c => alphabet.idxOf? c) = some ds
    ↔ (∀ d ∈ ds, d < 2 ^ k) ∧ charsOf alphabet ds = text
  := by
  induction text generalizing ds with
  | nil =>
      rw [List.mapM_nil, charsOf, List.map_eq_nil_iff]
      constructor
      · intro hds
        cases hds
        exact ⟨nofun, rfl⟩
      · rintro ⟨-, rfl⟩
        rfl
  | cons c text ih =>
      rw [List.mapM_cons]
      constructor
      · intro hds
        obtain ⟨d, hd, hds⟩ := Option.bind_eq_some_iff.mp hds
        obtain ⟨ds', hds', hcons⟩ := Option.bind_eq_some_iff.mp hds
        cases hcons
        obtain ⟨hlt, hchar⟩ := h.idxOf_eq_some.mp hd
        obtain ⟨hall, htext⟩ := ih.mp hds'
        refine ⟨List.forall_mem_cons.mpr ⟨hlt, hall⟩, ?_⟩
        rw [charsOf, List.map_cons, hchar, ← charsOf, htext]
      · rintro ⟨hall, htext⟩
        cases ds with
        | nil => cases htext
        | cons d ds =>
            obtain ⟨hlt, hall⟩ := List.forall_mem_cons.mp hall
            obtain ⟨hchar, htext⟩ := List.cons.inj htext
            rw [h.idxOf_eq_some.mpr ⟨hlt, hchar⟩, ih.mpr ⟨hall, htext⟩]
            rfl

theorem IsAlphabet.exists_digits (h : IsAlphabet k alphabet) (htext : ∀ c ∈ text, c ∈ alphabet) :
  ∃ ds, (∀ d ∈ ds, d < 2 ^ k) ∧ charsOf alphabet ds = text
  := by
  induction text with
  | nil => exact ⟨[], nofun, rfl⟩
  | cons c text ih =>
      obtain ⟨hc, htext⟩ := List.forall_mem_cons.mp htext
      obtain ⟨ds, hall, hds⟩ := ih htext
      obtain ⟨d, hd⟩ := Option.isSome_iff_exists.mp (List.isSome_idxOf?.mpr hc)
      obtain ⟨hlt, hchar⟩ := h.idxOf_eq_some.mp hd
      refine ⟨d :: ds, List.forall_mem_cons.mpr ⟨hlt, hall⟩, ?_⟩
      rw [charsOf, List.map_cons, hchar, ← charsOf, hds]

theorem IsAlphabet.mem_charsOf (h : IsAlphabet k alphabet) (hds : ∀ d ∈ ds, d < 2 ^ k) :
  ∀ c ∈ charsOf alphabet ds, c ∈ alphabet
  := by
  intro c hc
  obtain ⟨d, hd, rfl⟩ := List.mem_map.mp hc
  rw [← List.isSome_idxOf?, h.idxOf d (hds d hd)]
  rfl

/-- The bits that are left over after the bytes of a text of `n` characters. -/
def spareBits (k n : ℕ) : ℕ := n * k - n * k / 8 * 8

theorem spareBits_add (k n : ℕ) :
  n * k / 8 * 8 + spareBits k n = n * k
  := by
  rw [spareBits]
  omega

theorem length_charsOf (alphabet : Bytes) (ds : List ℕ) :
  (charsOf alphabet ds).length = ds.length
  := List.length_map _

/-- What a text is decoded to are its bits, but for those that are left over. -/
theorem IsAlphabet.decodeBits_charsOf (h : IsAlphabet k alphabet) (hds : ∀ d ∈ ds, d < 2 ^ k) :
  decodeBits k alphabet (charsOf alphabet ds)
    = some (be (ds.length * k / 8) (ofDigits k ds / 2 ^ spareBits k ds.length))
  := by
  rw [decodeBits, h.mapM_eq_some.mpr ⟨hds, rfl⟩, length_charsOf]
  rfl

theorem lt_of_spareBits (hds : ∀ d ∈ ds, d < 2 ^ k) :
  ofDigits k ds / 2 ^ spareBits k ds.length < 256 ^ (ds.length * k / 8)
  := by
  have hlt := ofDigits_lt hds
  rw [← spareBits_add k ds.length, pow_add] at hlt
  have hdiv := Nat.div_lt_of_lt_mul (Nat.mul_comm _ _ ▸ hlt)
  rwa [show (256 : ℕ) = 2 ^ 8 by rfl, ← pow_mul, Nat.mul_comm 8]

/-- Digits are those of the byte string they are decoded to, if no bits are left over but zeros, and
fewer than those of a digit. -/
theorem encodeBits_decoded (hds : ∀ d ∈ ds, d < 2 ^ k) (hspare : spareBits k ds.length < k)
    (hzero : ofDigits k ds % 2 ^ spareBits k ds.length = 0) :
  encodeBits k alphabet (be (ds.length * k / 8) (ofDigits k ds / 2 ^ spareBits k ds.length))
    = charsOf alphabet ds
  := by
  have hadd := spareBits_add k ds.length
  have hchars : (ds.length * k / 8 * 8 + k - 1) / k = ds.length := by
    apply Nat.div_eq_of_lt_le
    · omega
    · rw [Nat.succ_mul]
      omega
  have hbits : ofDigits k ds / 2 ^ spareBits k ds.length
      * 2 ^ (ds.length * k - ds.length * k / 8 * 8) = ofDigits k ds := by
    exact Nat.div_mul_cancel (Nat.dvd_of_mod_eq_zero hzero)
  have hmap := congrArg (charsOf alphabet) (digits_ofDigits hds)
  rw [charsOf, List.map_map] at hmap
  rw [encodeBits, length_be, ofBe_be (lt_of_spareBits hds), hchars, hbits]
  exact hmap

/-- The text of a byte string has digits that make up the byte string and zeros. -/
theorem encodeBits_digits (hk : 0 < k) (alphabet data : Bytes) :
  ∃ ds, (∀ d ∈ ds, d < 2 ^ k) ∧ encodeBits k alphabet data = charsOf alphabet ds
    ∧ ds.length = (data.length * 8 + k - 1) / k
    ∧ ofDigits k ds = ofBe data * 2 ^ (ds.length * k - data.length * 8)
  := by
  have hupper := Nat.div_mul_le_self (data.length * 8 + k - 1) k
  have hlower := Nat.lt_div_mul_add hk (a := data.length * 8 + k - 1)
  rw [encodeBits]
  generalize (data.length * 8 + k - 1) / k = chars at *
  have hbits := padded_lt data (by omega : data.length * 8 ≤ chars * k)
  refine ⟨(List.range chars).map fun i => ofBe data * 2 ^ (chars * k - data.length * 8)
    / 2 ^ ((chars - 1 - i) * k) % 2 ^ k, ?_, ?_, ?_, ?_⟩
  · intro d hd
    obtain ⟨i, -, rfl⟩ := List.mem_map.mp hd
    exact Nat.mod_lt _ (by positivity)
  · rw [charsOf, List.map_map]
    rfl
  · rw [List.length_map, List.length_range]
  · rw [List.length_map, List.length_range]
    exact foldl_digits k _ chars hbits

/-- The bits of what digits are decoded to are the first of their bits. -/
theorem bitsOfBytes_decoded (hds : ∀ d ∈ ds, d < 2 ^ k) :
  bitsOfBytes (be (ds.length * k / 8) (ofDigits k ds / 2 ^ spareBits k ds.length))
    = (ds.flatMap (bits k)).take (ds.length * k / 8 * 8)
  := by
  have htake := take_bits (ds.length * k / 8 * 8) (spareBits k ds.length) (ofDigits k ds)
  rw [spareBits_add] at htake
  rw [bitsOfBytes_eq, length_be, ofBe_be (lt_of_spareBits hds), flatMap_bits hds, htake]

theorem bitsOfBytes_injective :
  Function.Injective bitsOfBytes
  := by
  intro b c h
  have hlength := congrArg List.length h
  rw [bitsOfBytes_eq, bitsOfBytes_eq, length_bits, length_bits] at hlength
  have hlen : b.length = c.length := by omega
  have hpow : ∀ bs : Bytes, ofBe bs < 2 ^ (bs.length * 8) := by
    intro bs
    have hlt := ofBe_lt bs
    rwa [show (256 : ℕ) = 2 ^ 8 by rfl, ← pow_mul, Nat.mul_comm] at hlt
  rw [bitsOfBytes_eq, bitsOfBytes_eq, ← hlen] at h
  have heq := eq_of_bits h (hpow b) (hlen ▸ hpow c)
  rw [← be_ofBe b, ← be_ofBe c, heq, hlen]

end Alphabet

/-! ### Base64 -/

theorem isAlphabet_base64 :
  IsAlphabet 6 base64Alphabet
  where
  length := by decide
  idxOf := by decide

theorem pad_not_mem :
  char '=' ∉ base64Alphabet
  := by decide

/-- The text of characters of the alphabet and signs of equality. -/
def padded (c : Bytes) (p : ℕ) : Bytes := c ++ List.replicate p (char '=')

/-- The characters before two signs of equality at the end, or before one, or all. -/
def unpadded (s : Bytes) : Bytes :=
  ((stripSuffix (ascii "==") s).or (stripSuffix (ascii "=") s)).getD s

section Base64

variable {c : Bytes} {ds : List ℕ}

theorem stripSuffix_append (bs suffix : Bytes) :
  stripSuffix suffix (bs ++ suffix) = some bs
  := by
  rw [stripSuffix, if_pos (List.isSuffixOf_iff_suffix.mpr (List.suffix_append bs suffix)),
    List.length_append, Nat.add_sub_cancel, List.take_left]

variable {m n p p' spare : ℕ} {b c' s body suffix : Bytes}

theorem stripSuffix_eq_some (h : stripSuffix suffix s = some body) :
  s = body ++ suffix
  := by
  rw [stripSuffix] at h
  split at h
  · rename_i hsuffix
    cases h
    obtain ⟨t, rfl⟩ := List.isSuffixOf_iff_suffix.mp hsuffix
    rw [List.length_append, Nat.add_sub_cancel, List.take_left]
  · cases h

/-- Up to two signs of equality are removed. -/
theorem unpadded_eq (s : Bytes) :
  ∃ p ≤ 2, s = padded (unpadded s) p
  := by
  rw [unpadded]
  cases htwo : stripSuffix (ascii "==") s with
  | some body => exact ⟨2, le_rfl, stripSuffix_eq_some htwo⟩
  | none =>
      cases hone : stripSuffix (ascii "=") s with
      | some body => exact ⟨1, by decide, stripSuffix_eq_some hone⟩
      | none => exact ⟨0, by decide, (List.append_nil s).symm⟩

theorem stripSuffix_eq_none {x : UInt8} (hx : (suffix.getLast?) = some x)
    (hs : s.getLast? ≠ some x) :
  stripSuffix suffix s = none
  := by
  rw [stripSuffix, if_neg]
  intro h
  obtain ⟨t, rfl⟩ := List.isSuffixOf_iff_suffix.mp h
  rw [List.getLast?_append, hx] at hs
  exact hs rfl

theorem unpadded_padded (hc : ∀ x ∈ c, x ∈ base64Alphabet) (hp : p ≤ 2) :
  unpadded (padded c p) = c
  := by
  have hlast : c.getLast? ≠ some (char '=') := fun h =>
    pad_not_mem (hc _ (List.mem_of_getLast? h))
  obtain rfl | rfl | rfl : p = 0 ∨ p = 1 ∨ p = 2 := by omega
  · rw [unpadded, padded, List.replicate_zero, List.append_nil,
      stripSuffix_eq_none (x := char '=') (by decide) hlast,
      stripSuffix_eq_none (x := char '=') (by decide) hlast]
    rfl
  · have hnone : stripSuffix (ascii "==") (c ++ [char '=']) = none := by
      cases htwo : stripSuffix (ascii "==") (c ++ [char '=']) with
      | none => rfl
      | some body =>
          have heq := stripSuffix_eq_some htwo
          rw [show ascii "==" = [char '='] ++ [char '='] by decide, ← List.append_assoc] at heq
          have hc := List.append_cancel_right heq
          rw [hc, List.getLast?_concat] at hlast
          exact absurd rfl hlast
    rw [unpadded, padded, List.replicate_one, hnone]
    exact congrArg (Option.getD · _) (stripSuffix_append c (ascii "="))
  · rw [unpadded, padded]
    have htwo := stripSuffix_append c (ascii "==")
    rw [show c ++ List.replicate 2 (char '=') = c ++ ascii "==" by rfl, htwo]
    rfl

/-- The digits whose last one has no bits of no byte. -/
def clearLast (spare : ℕ) (ds : List ℕ) : List ℕ :=
  ds.dropLast ++ ds.getLast?.toList.map fun d => d / 2 ^ spare * 2 ^ spare

theorem clearLast_concat (spare : ℕ) (ds : List ℕ) (d : ℕ) :
  clearLast spare (ds ++ [d]) = ds ++ [d / 2 ^ spare * 2 ^ spare]
  := by rw [clearLast, List.dropLast_concat, List.getLast?_concat]; rfl

theorem length_clearLast (spare : ℕ) (ds : List ℕ) :
  (clearLast spare ds).length = ds.length
  := by
  induction ds using List.reverseRecOn with
  | nil => rfl
  | append_singleton ds d _ =>
      rw [clearLast_concat, List.length_append, List.length_append, List.length_singleton,
        List.length_singleton]

/-- Clearing bits of the last digit clears those of the number. -/
theorem ofDigits_clearLast (hspare : spare ≤ 6) (ds : List ℕ) :
  ofDigits 6 (clearLast spare ds) = ofDigits 6 ds / 2 ^ spare * 2 ^ spare
  := by
  induction ds using List.reverseRecOn with
  | nil => simp [clearLast, ofDigits]
  | append_singleton ds d _ =>
      obtain ⟨m, hm⟩ := Nat.exists_eq_add_of_le hspare
      have hpow : (2 : ℕ) ^ 6 = 2 ^ spare * 2 ^ m := by rw [← pow_add, ← hm]
      rw [clearLast_concat, ofDigits_concat, ofDigits_concat, hpow,
        show ofDigits 6 ds * (2 ^ spare * 2 ^ m) + d
          = d + 2 ^ spare * (ofDigits 6 ds * 2 ^ m) by ring,
        Nat.add_mul_div_left _ _ (by positivity)]
      ring

theorem clearLast_lt (hds : ∀ d ∈ ds, d < 2 ^ 6) :
  ∀ d ∈ clearLast spare ds, d < 2 ^ 6
  := by
  induction ds using List.reverseRecOn with
  | nil => nofun
  | append_singleton ds d _ =>
      intro x hx
      rw [clearLast_concat] at hx
      rcases List.mem_append.mp hx with hx | hx
      · exact hds x (List.mem_append_left _ hx)
      · rw [List.mem_singleton.mp hx]
        exact (Nat.div_mul_le_self _ _).trans_lt
          (hds d (List.mem_append_right _ List.mem_cons_self))

/-- The mask of a length clears the bits of the last digit that belong to no byte. -/
theorem trailingMask_eq_some (h : trailingMask n = some m) :
  n % 4 ≠ 1 ∧ spareBits 6 n < 6
    ∧ ∀ d < 2 ^ 6, d &&& (63 ^^^ m) = d / 2 ^ spareBits 6 n * 2 ^ spareBits 6 n
  := by
  rw [trailingMask] at h
  split at h
  · rename_i hmod
    cases h
    have hspare : spareBits 6 n = 0 := by rw [spareBits]; omega
    rw [hspare]
    exact ⟨by omega, by decide, by decide⟩
  · rename_i hmod
    cases h
    have hspare : spareBits 6 n = 4 := by rw [spareBits]; omega
    rw [hspare]
    exact ⟨by omega, by decide, by decide⟩
  · rename_i hmod
    cases h
    have hspare : spareBits 6 n = 2 := by rw [spareBits]; omega
    rw [hspare]
    exact ⟨by omega, by decide, by decide⟩
  · cases h

theorem exists_trailingMask (h : n % 4 ≠ 1) :
  ∃ m, trailingMask n = some m
  := by
  obtain hmod | hmod | hmod : n % 4 = 0 ∨ n % 4 = 2 ∨ n % 4 = 3 := by omega
  · exact ⟨0, by simp [trailingMask, hmod]⟩
  · exact ⟨0b1111, by simp [trailingMask, hmod]⟩
  · exact ⟨0b11, by simp [trailingMask, hmod]⟩

/-- The text with the bits of its last character cleared. -/
theorem base64Body_padded (hds : ∀ d ∈ ds, d < 2 ^ 6) (hlen : ds.length % 4 ≠ 1)
    (hp : p ≤ (4 - ds.length % 4) % 4) :
  base64Body (padded (charsOf base64Alphabet ds) p)
    = some (charsOf base64Alphabet (clearLast (spareBits 6 ds.length) ds))
  := by
  have hmem := isAlphabet_base64.mem_charsOf hds
  obtain ⟨mask, hmask⟩ := exists_trailingMask hlen
  obtain ⟨-, -, hclear⟩ := trailingMask_eq_some hmask
  have hbody := unpadded_padded hmem (show p ≤ 2 by omega)
  rw [unpadded] at hbody
  rw [base64Body, hbody, length_charsOf, if_neg, hmask]
  · induction ds using List.reverseRecOn with
    | nil => rfl
    | append_singleton ds d _ =>
        have hd := hds d (List.mem_append_right _ List.mem_cons_self)
        rw [clearLast_concat, ← hclear d hd]
        have hconcat : ∀ x, charsOf base64Alphabet (ds ++ [x])
            = charsOf base64Alphabet ds ++ [base64Alphabet.getD x 0] := by
          intro x
          rw [charsOf, List.map_append, List.map_singleton, charsOf]
        rw [hconcat, hconcat, List.getLast?_concat, List.dropLast_concat]
        have hlt : d &&& (63 ^^^ mask) < base64Alphabet.length :=
          Nat.and_le_left.trans_lt (isAlphabet_base64.length ▸ hd)
        simp only [isAlphabet_base64.idxOf d hd, List.getElem?_eq_getElem hlt,
          List.getD_eq_getElem _ _ hlt, Option.bind_eq_bind, Option.bind_some]
  · rw [padded, List.length_append, length_charsOf, List.length_replicate]
    omega

/-- What is left of a text is its characters, of which only the last one changes. -/
theorem base64Body_eq_some (h : base64Body s = some body) :
  s.length ≤ ((unpadded s).length + 3) / 4 * 4
    ∧ (∃ mask, trailingMask (unpadded s).length = some mask)
    ∧ (unpadded s = [] ∨ ∃ last cleared, (unpadded s).getLast? = some last ∧ last ∈ base64Alphabet
      ∧ body = (unpadded s).dropLast ++ [cleared])
  := by
  have hbody : ((stripSuffix (ascii "==") s).or (stripSuffix (ascii "=") s)).getD s
      = unpadded s := rfl
  rw [base64Body, hbody] at h
  split at h
  · cases h
  · rename_i hle
    obtain ⟨mask, hmask, h⟩ := Option.bind_eq_some_iff.mp h
    refine ⟨not_lt.mp hle, ⟨mask, hmask⟩, ?_⟩
    split at h
    · rename_i hlast
      exact .inl (List.getLast?_eq_none_iff.mp hlast)
    · rename_i last hlast
      obtain ⟨index, hindex, h⟩ := Option.bind_eq_some_iff.mp h
      obtain ⟨cleared, -, h⟩ := Option.bind_eq_some_iff.mp h
      refine .inr ⟨last, cleared, hlast, ?_, (Option.some.inj h).symm⟩
      rw [← List.isSome_idxOf?, hindex]
      rfl

attribute [local instance] DataEncoding.standard

/-- Characters of the alphabet and padding up to a group of four are decoded to the first of their
bits. -/
theorem decodeBase64_padded (hds : ∀ d ∈ ds, d < 2 ^ 6) (hlen : ds.length % 4 ≠ 1)
    (hp : p ≤ (4 - ds.length % 4) % 4) :
  decodeBase64 (padded (charsOf base64Alphabet ds) p)
    = some (be (ds.length * 6 / 8) (ofDigits 6 ds / 2 ^ spareBits 6 ds.length))
  := by
  obtain ⟨mask, hmask⟩ := exists_trailingMask hlen
  obtain ⟨-, hspare, -⟩ := trailingMask_eq_some hmask
  have hclear := @clearLast_lt ds (spareBits 6 ds.length) hds
  have hlength := length_clearLast (spareBits 6 ds.length) ds
  have hbits := ofDigits_clearLast hspare.le ds
  have hdecode := isAlphabet_base64.decodeBits_charsOf hclear
  have hencode := @encodeBits_decoded _ base64Alphabet _ hclear (by rwa [hlength])
    (by rw [hlength, hbits, Nat.mul_mod_left])
  rw [hlength, hbits, Nat.mul_div_cancel _ (by positivity)] at hdecode hencode
  rw [decodeBase64, base64Body_padded hds hlen hp]
  show (decodeBits 6 base64Alphabet _).bind _ = _
  rw [hdecode, Option.bind_some, hencode, if_pos rfl]

/-- What is decoded is characters of the alphabet and padding up to a group of four. -/
theorem exists_of_decodeBase64 (h : decodeBase64 s = some b) :
  ∃ ds p, (∀ d ∈ ds, d < 2 ^ 6) ∧ ds.length % 4 ≠ 1 ∧ p ≤ (4 - ds.length % 4) % 4
    ∧ s = padded (charsOf base64Alphabet ds) p
  := by
  obtain ⟨body, hbody, hdecode⟩ := Option.bind_eq_some_iff.mp h
  obtain ⟨p, hp, hs⟩ := unpadded_eq s
  obtain ⟨hle, ⟨mask, hmask⟩, hlast⟩ := base64Body_eq_some hbody
  obtain ⟨data, hdata, -⟩ := Option.bind_eq_some_iff.mp hdecode
  obtain ⟨ds', hds', -⟩ := Option.bind_eq_some_iff.mp hdata
  obtain ⟨hlt', hchars'⟩ := isAlphabet_base64.mapM_eq_some.mp hds'
  have hmem' := isAlphabet_base64.mem_charsOf hlt'
  rw [hchars'] at hmem'
  have hmem : ∀ c ∈ unpadded s, c ∈ base64Alphabet := by
    rcases hlast with hnil | ⟨last, cleared, hlast, hmem, rfl⟩
    · rw [hnil]
      nofun
    · intro c hc
      rw [← List.dropLast_append_getLast? last hlast] at hc
      rcases List.mem_append.mp hc with hc | hc
      · exact hmem' c (List.mem_append_left _ hc)
      · rwa [List.mem_singleton.mp hc]
  obtain ⟨ds, hds, hchars⟩ := isAlphabet_base64.exists_digits hmem
  have hlength := congrArg List.length hchars
  rw [length_charsOf] at hlength
  have hlen := congrArg List.length hs
  rw [padded, List.length_append, List.length_replicate] at hlen
  obtain ⟨hmod, -, -⟩ := trailingMask_eq_some hmask
  refine ⟨ds, p, hds, hlength ▸ hmod, ?_, ?_⟩
  · rw [hlength]
    omega
  · rw [hchars]
    exact hs

/-- The bits of characters of the alphabet. -/
def base64Bits (c : Bytes) : List Bool := c.flatMap fun x => bits 6 (base64Alphabet.idxOf x)

theorem base64_idxOf :
  ∀ d < 2 ^ 6, base64Alphabet.idxOf (base64Alphabet.getD d 0) = d
  := by decide

theorem base64Bits_charsOf (hds : ∀ d ∈ ds, d < 2 ^ 6) :
  base64Bits (charsOf base64Alphabet ds) = ds.flatMap (bits 6)
  := by
  rw [base64Bits, charsOf, List.flatMap_map]
  apply List.flatMap_congr
  intro d hd
  rw [base64_idxOf d (hds d hd)]

/-- The characters of a padded text are determined by it. -/
theorem padded_inj (hc : ∀ x ∈ c, x ∈ base64Alphabet)
    (hc' : ∀ x ∈ c', x ∈ base64Alphabet) (h : padded c p = padded c' p') :
  c = c'
  := by
  have htake : ∀ {c : Bytes} {p : ℕ}, (∀ x ∈ c, x ∈ base64Alphabet) →
      (padded c p).takeWhile (fun x => x ≠ char '=') = c := by
    intro c p hc
    rw [padded, List.takeWhile_append_of_pos]
    · cases p with
      | zero => simp
      | succ p => simp [List.replicate_succ]
    · intro x hx
      exact decide_eq_true fun heq => pad_not_mem (heq ▸ hc x hx)
  rw [← htake (p := p) hc, h, htake hc']

theorem decodeBase64_eq_some :
  decodeBase64 s = some b ↔ ∃ c p, s = padded c p ∧ (∀ x ∈ c, x ∈ base64Alphabet)
    ∧ c.length % 4 ≠ 1 ∧ p ≤ (4 - c.length % 4) % 4
    ∧ bitsOfBytes b = (base64Bits c).take (8 * (6 * c.length / 8))
  := by
  have hlen : ∀ ds : List ℕ,
      8 * (6 * (charsOf base64Alphabet ds).length / 8) = ds.length * 6 / 8 * 8 := by
    intro ds
    rw [length_charsOf]
    omega
  constructor
  · intro h
    obtain ⟨ds, p, hds, hmod, hp, rfl⟩ := exists_of_decodeBase64 h
    rw [decodeBase64_padded hds hmod hp] at h
    cases h
    refine ⟨charsOf base64Alphabet ds, p, rfl, isAlphabet_base64.mem_charsOf hds, ?_, ?_, ?_⟩
    · rwa [length_charsOf]
    · rwa [length_charsOf]
    · rw [base64Bits_charsOf hds, hlen, bitsOfBytes_decoded hds]
  · rintro ⟨c, p, rfl, hc, hmod, hp, hbits⟩
    obtain ⟨ds, hds, rfl⟩ := isAlphabet_base64.exists_digits hc
    rw [base64Bits_charsOf hds, hlen, ← bitsOfBytes_decoded hds] at hbits
    rw [length_charsOf] at hmod hp
    rw [bitsOfBytes_injective hbits]
    exact decodeBase64_padded hds hmod hp

/-- Every byte string is decoded from its text with any part of the padding. -/
theorem decodeBase64_base64 {data : Bytes}
    (hp : p ≤ (4 - (DataEncoding.base64 data).length % 4) % 4) :
  decodeBase64 (padded (DataEncoding.base64 data) p) = some data
  := by
  obtain ⟨ds, hds, hencode, hlength, hbits⟩ :=
    @encodeBits_digits 6 (by decide) base64Alphabet data
  have hbase64 : DataEncoding.base64 data = charsOf base64Alphabet ds := hencode
  have hspare : spareBits 6 ds.length = ds.length * 6 - data.length * 8 := by
    rw [spareBits]
    omega
  have hmod : ds.length % 4 ≠ 1 := by omega
  rw [hbase64, length_charsOf] at hp
  rw [hbase64, decodeBase64_padded hds hmod hp, hbits, hspare, Nat.mul_div_cancel _ (by positivity),
    show ds.length * 6 / 8 = data.length by omega, be_ofBe]

/-- Base64 decodes its language, and the text of every byte string with any part of its padding. The
bits that belong to no byte and the padding do not matter. -/
theorem base64_language (s b : Bytes) :
  (decodeBase64 s = some b ↔ ∃ c p, s = padded c p ∧ (∀ x ∈ c, x ∈ base64Alphabet)
      ∧ c.length % 4 ≠ 1 ∧ p ≤ (4 - c.length % 4) % 4
      ∧ bitsOfBytes b = (base64Bits c).take (8 * (6 * c.length / 8)))
    ∧ (∀ p, p ≤ (4 - (DataEncoding.base64 b).length % 4) % 4 →
      decodeBase64 (padded (DataEncoding.base64 b) p) = some b)
    ∧ ∀ c c' p p' data data', (∀ x ∈ c, x ∈ base64Alphabet) → (∀ x ∈ c', x ∈ base64Alphabet) →
      decodeBase64 (padded c p) = some data → decodeBase64 (padded c' p') = some data' →
      c.length = c'.length →
      (base64Bits c).take (8 * (6 * c.length / 8)) = (base64Bits c').take (8 * (6 * c.length / 8)) →
      data = data'
  := by
  refine ⟨decodeBase64_eq_some, fun p => decodeBase64_base64, ?_⟩
  intro c c' p p' data data' hc hc' h h' hlength hbits
  obtain ⟨d, q, hd, hdmem, -, -, hdata⟩ := decodeBase64_eq_some.mp h
  obtain ⟨d', q', hd', hdmem', -, -, hdata'⟩ := decodeBase64_eq_some.mp h'
  obtain rfl := padded_inj hc hdmem hd
  obtain rfl := padded_inj hc' hdmem' hd'
  apply bitsOfBytes_injective
  rw [hdata, hbits, hlength, hdata']

end Base64

end Shrike.Cbor
