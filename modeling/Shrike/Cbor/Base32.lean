import Shrike.Cbor.Base64

/-!
# Base32 and the text of a CID

Base32 in lower case is read in groups of eight symbols. The two parsers of CIDs agree on the text of
a CID, which is the only one that the strict parser reads.
-/

namespace Shrike.Cbor

open Bytes Radix

/-! ### Groups of symbols -/

/-- The value of a base32 symbol in lower case, or 0xff. -/
def base32Value (c : UInt8) : ℕ :=
  if 97 ≤ c ∧ c ≤ 122 then c.toNat - 97 else if 50 ≤ c ∧ c ≤ 55 then c.toNat - 50 + 26 else 0xff

/-- The values of the symbols of a group, together with those before, and its bits. -/
def groupBits (symbols : ℕ) (group : Bytes) : ℕ × ℕ :=
  group.foldl (fun acc c => (acc.1 ||| base32Value c, acc.2 <<< 5 ||| base32Value c &&& 31))
    (symbols, 0)

/-- The bytes of a number of groups of eight symbols: the values of the symbols, together with those
before, the bytes, and the symbols that are left. -/
def wholeGroups : ℕ → ℕ → Bytes → ℕ × Bytes × Bytes
  | 0, symbols, s => (symbols, [], s)
  | n + 1, symbols, s =>
      let (symbols, bits) := groupBits symbols (s.take 8)
      let (symbols, out, last) := wholeGroups n symbols (s.drop 8)
      (symbols, be 5 bits ++ out, last)

/-- Decode base32 in lower case. Signs of equality at the end are ignored, and the bits that are left
over must be zero. -/
def decodeBase32Lower (s : Bytes) : Option Bytes :=
  let s := s.rdropWhile (· == char '=')
  if s.length % 8 = 1 ∨ s.length % 8 = 3 ∨ s.length % 8 = 6 then none
  else
    let (symbols, out, last) := wholeGroups (s.length / 8) 0 s
    let partialLen := s.length * 5 / 8 - s.length / 8 * 5
    let spare := last.length * 5 - partialLen * 8
    let (symbols, bits) := groupBits symbols last
    if bits &&& (1 <<< spare - 1) ≠ 0 then none
    else if symbols < 32 then some (out ++ be partialLen (bits >>> spare)) else none

/-- The ways a string can fail to spell a CID. -/
inductive InvalidCidString where
  | malformed (s : Bytes)
  | unsupported (cid : UnsupportedCid)

/-- The CID that a string spells as a link does. -/
def parseCidString (s : Bytes) : Except InvalidCidString Cid :=
  match parseLink s with
  | .error cid => .error (.unsupported cid)
  | .ok none => .error (.malformed s)
  | .ok (some cid) => .ok cid

/-! ### The alphabet -/

theorem isAlphabet_base32 :
  IsAlphabet 5 base32Lower
  where
  length := by decide
  idxOf := by decide

theorem pad_not_mem_base32 :
  char '=' ∉ base32Lower
  := by decide

theorem base32Value_getD :
  ∀ d < 2 ^ 5, base32Value (base32Lower.getD d 0) = d
  := by decide

theorem base32Value_ofNat :
  ∀ n < 256, UInt8.ofNat n ∈ base32Lower ∨ base32Value (UInt8.ofNat n) = 0xff
  := by decide +kernel

theorem base32Value_of_not_mem {c : UInt8} (h : c ∉ base32Lower) :
  base32Value c = 0xff
  := by
  have hc := base32Value_ofNat c.toNat c.toNat_lt
  rw [UInt8.ofNat_toNat] at hc
  exact hc.resolve_left h

/-! ### Groups of symbols of the alphabet -/

section Groups

/-- The bytes of a number are those of its high part and those of its low part. -/
theorem be_append {b low : ℕ} (hlow : low < 256 ^ b) (a high : ℕ) :
  be (a + b) (high * 256 ^ b + low) = be a high ++ be b low
  := by
  have hmod := be_mod b b (high * 256 ^ b + low) le_rfl
  have hdiv : (high * 256 ^ b + low) / 256 ^ b = high := by
    rw [Nat.mul_comm, Nat.mul_add_div (by positivity), Nat.div_eq_of_lt hlow, Nat.add_zero]
  induction a with
  | zero => rw [Nat.zero_add, ← hmod, Nat.mul_add_mod_self_right, Nat.mod_eq_of_lt hlow]; rfl
  | succ a ih =>
      rw [Nat.succ_add, be, be, ih, List.cons_append, Nat.add_comm a, pow_add,
        ← Nat.div_div_eq_div_mul, hdiv]

theorem charsOf_concat (alphabet : Bytes) (ds : List ℕ) (d : ℕ) :
  charsOf alphabet (ds ++ [d]) = charsOf alphabet ds ++ [alphabet.getD d 0]
  := by rw [charsOf, List.map_append, List.map_singleton, charsOf]

theorem take_charsOf (alphabet : Bytes) (ds : List ℕ) (n : ℕ) :
  (charsOf alphabet ds).take n = charsOf alphabet (ds.take n)
  := List.map_take.symm

theorem drop_charsOf (alphabet : Bytes) (ds : List ℕ) (n : ℕ) :
  (charsOf alphabet ds).drop n = charsOf alphabet (ds.drop n)
  := List.map_drop.symm

variable {ds : List ℕ} {s : Bytes}

theorem groupBits_concat (symbols : ℕ) (group : Bytes) (c : UInt8) :
  groupBits symbols (group ++ [c]) = ((groupBits symbols group).1 ||| base32Value c,
    (groupBits symbols group).2 <<< 5 ||| base32Value c &&& 31)
  := by rw [groupBits, List.foldl_append, List.foldl_cons, List.foldl_nil, groupBits]

/-- The bits of a group of the alphabet are those of its digits. -/
theorem groupBits_snd (symbols : ℕ) (hds : ∀ d ∈ ds, d < 2 ^ 5) :
  (groupBits symbols (charsOf base32Lower ds)).2 = ofDigits 5 ds
  := by
  induction ds using List.reverseRecOn with
  | nil => rfl
  | append_singleton ds d ih =>
      have hbits := ih fun x hx => hds x (List.mem_append_left _ hx)
      have hd := hds d (List.mem_append_right _ List.mem_cons_self)
      have hmod : d &&& 31 = d := by
        rw [show 31 = 2 ^ 5 - 1 by rfl, Nat.and_two_pow_sub_one_eq_mod, Nat.mod_eq_of_lt hd]
      rw [charsOf_concat, groupBits_concat, base32Value_getD d hd, hmod, hbits, ofDigits_concat,
        ← Nat.shiftLeft_add_eq_or_of_lt hd, Nat.shiftLeft_eq]

/-- The values of symbols of the alphabet are small. -/
theorem groupBits_lt {symbols : ℕ} (hsymbols : symbols < 32) (hds : ∀ d ∈ ds, d < 2 ^ 5) :
  (groupBits symbols (charsOf base32Lower ds)).1 < 32
  := by
  induction ds using List.reverseRecOn with
  | nil => exact hsymbols
  | append_singleton ds d ih =>
      have hsmall := ih fun x hx => hds x (List.mem_append_left _ hx)
      have hd := hds d (List.mem_append_right _ List.mem_cons_self)
      rw [charsOf_concat, groupBits_concat, base32Value_getD d hd]
      exact Nat.or_lt_two_pow (n := 5) hsmall hd

theorem groupBits_fst (symbols : ℕ) (group : Bytes) :
  (groupBits symbols group).1 = group.foldl (fun symbols c => symbols ||| base32Value c) symbols
  := by
  induction group using List.reverseRecOn with
  | nil => rfl
  | append_singleton group c ih =>
      rw [groupBits_concat, List.foldl_append, List.foldl_cons, List.foldl_nil, ih]

/-- A symbol that is not of the alphabet shows in the values. -/
theorem le_groupBits (symbols : ℕ) (h : ∃ c ∈ s, c ∉ base32Lower) :
  32 ≤ (groupBits symbols s).1
  := by
  induction s using List.reverseRecOn with
  | nil =>
      obtain ⟨c, hc, -⟩ := h
      cases hc
  | append_singleton s c ih =>
      rw [groupBits_concat]
      by_cases hc : c ∈ base32Lower
      · obtain ⟨x, hx, hbad⟩ := h
        rcases List.mem_append.mp hx with hx | hx
        · exact (ih ⟨x, hx, hbad⟩).trans Nat.left_le_or
        · exact absurd (List.mem_singleton.mp hx ▸ hc) hbad
      · rw [base32Value_of_not_mem hc]
        exact le_trans (by decide) Nat.right_le_or

theorem wholeGroups_last (n symbols : ℕ) (s : Bytes) :
  (wholeGroups n symbols s).2.2 = s.drop (8 * n)
  := by
  induction n generalizing symbols s with
  | zero => rfl
  | succ n ih =>
      show (wholeGroups n _ (s.drop 8)).2.2 = _
      rw [ih, List.drop_drop, Nat.mul_succ, Nat.add_comm]

/-- The values of the symbols of groups are those of the symbols together. -/
theorem wholeGroups_symbols (n symbols : ℕ) (s : Bytes) :
  (groupBits (wholeGroups n symbols s).1 (wholeGroups n symbols s).2.2).1 = (groupBits symbols s).1
  := by
  induction n generalizing symbols s with
  | zero => rfl
  | succ n ih =>
      show (groupBits (wholeGroups n (groupBits symbols (s.take 8)).1 (s.drop 8)).1
        (wholeGroups n (groupBits symbols (s.take 8)).1 (s.drop 8)).2.2).1 = _
      rw [ih, groupBits_fst, groupBits_fst, groupBits_fst, ← List.foldl_append,
        List.take_append_drop]

/-- The bytes of groups of the alphabet are those of the number that their digits spell. -/
theorem wholeGroups_bytes (n symbols : ℕ) (hds : ∀ d ∈ ds, d < 2 ^ 5) (hlen : 8 * n ≤ ds.length) :
  (wholeGroups n symbols (charsOf base32Lower ds)).2.1
    = be (5 * n) (ofDigits 5 (ds.take (8 * n)))
  := by
  induction n generalizing symbols ds with
  | zero => rfl
  | succ n ih =>
      have htake : ∀ d ∈ ds.take 8, d < 2 ^ 5 := fun d hd => hds d (List.mem_of_mem_take hd)
      have hdrop : ∀ d ∈ ds.drop 8, d < 2 ^ 5 := fun d hd => hds d (List.mem_of_mem_drop hd)
      have hrest : 8 * n ≤ (ds.drop 8).length := by
        rw [List.length_drop]
        omega
      have hbits := groupBits_snd symbols htake
      have hlow : ofDigits 5 ((ds.drop 8).take (8 * n)) < 256 ^ (5 * n) := by
        have hlt := ofDigits_lt fun d hd => hdrop d (List.mem_of_mem_take (i := 8 * n) hd)
        rw [List.length_take, Nat.min_eq_left hrest] at hlt
        rwa [show 256 = 2 ^ 8 by rfl, ← pow_mul, show 8 * (5 * n) = 8 * n * 5 by omega]
      have hsplit : ds.take (8 * (n + 1)) = ds.take 8 ++ (ds.drop 8).take (8 * n) := by
        rw [Nat.mul_succ, Nat.add_comm, List.take_add]
      have hpow : 2 ^ (((ds.drop 8).take (8 * n)).length * 5) = 256 ^ (5 * n) := by
        rw [List.length_take, Nat.min_eq_left hrest, show 256 = 2 ^ 8 by rfl, ← pow_mul]
        congr 1
        omega
      show be 5 (groupBits symbols ((charsOf base32Lower ds).take 8)).2
        ++ (wholeGroups n _ ((charsOf base32Lower ds).drop 8)).2.1 = _
      rw [take_charsOf, drop_charsOf, hbits, ih _ hdrop hrest, hsplit, ofDigits_append, hpow,
        ← be_append hlow, Nat.mul_succ, Nat.add_comm]

end Groups

/-! ### The decoder of groups -/

section Decoder

variable {ds : List ℕ} {s b : Bytes} {spare : ℕ}

/-- The bytes of a number are those of its high part and those of its low part, whose lowest bits
belong to no byte. -/
theorem be_high_low {high low bits len : ℕ} (hlow : low < 2 ^ bits) (hbits : bits = len * 8 + spare)
    (k : ℕ) :
  be (k + len) ((high * 2 ^ bits + low) / 2 ^ spare) = be k high ++ be len (low / 2 ^ spare)
    ∧ (high * 2 ^ bits + low) % 2 ^ spare = low % 2 ^ spare
  := by
  have hpow : 2 ^ bits = 256 ^ len * 2 ^ spare := by
    rw [hbits, pow_add, show 256 = 2 ^ 8 by rfl, ← pow_mul, Nat.mul_comm 8]
  rw [hpow] at hlow ⊢
  constructor
  · rw [show high * (256 ^ len * 2 ^ spare) + low = low + 2 ^ spare * (high * 256 ^ len) by ring,
      Nat.add_mul_div_left _ _ (by positivity), Nat.add_comm (low / 2 ^ spare), be_append]
    exact Nat.div_lt_of_lt_mul (Nat.mul_comm _ _ ▸ hlow)
  · rw [show high * (256 ^ len * 2 ^ spare) + low = low + 2 ^ spare * (high * 256 ^ len) by ring,
      Nat.add_mul_mod_self_left]

theorem spareBits_lt {n : ℕ} (h : ¬(n % 8 = 1 ∨ n % 8 = 3 ∨ n % 8 = 6)) :
  spareBits 5 n < 5
  := by
  have hmod := Nat.mod_lt n (show 0 < 8 by decide)
  rw [spareBits]
  obtain h0 | h2 | h4 | h5 | h7 : n % 8 = 0 ∨ n % 8 = 2 ∨ n % 8 = 4 ∨ n % 8 = 5 ∨ n % 8 = 7 := by
    omega
  all_goals omega

theorem rdropWhile_padded {c : Bytes} (hc : ∀ x ∈ c, x ∈ base32Lower) (p : ℕ) :
  (padded c p).rdropWhile (· == char '=') = c
  := by
  induction p with
  | zero =>
      rw [padded, List.replicate_zero, List.append_nil, List.rdropWhile_eq_self_iff]
      intro hne hlast
      exact pad_not_mem_base32 (beq_iff_eq.mp hlast ▸ hc _ (List.getLast_mem hne))
  | succ p ih =>
      rw [padded, List.replicate_succ', ← List.append_assoc]
      exact (List.rdropWhile_concat_pos (· == char '=') _ _ (beq_self_eq_true _)).trans ih

theorem exists_padded (s : Bytes) :
  ∃ p, s = padded (s.rdropWhile (· == char '=')) p
  := by
  have hpad : s.rtakeWhile (· == char '=')
      = List.replicate (s.rtakeWhile (· == char '=')).length (char '=') := by
    apply List.eq_replicate_of_mem
    intro x hx
    exact beq_iff_eq.mp (List.mem_rtakeWhile_imp (p := (· == char '=')) hx)
  refine ⟨(s.rtakeWhile (· == char '=')).length, ?_⟩
  rw [padded, ← hpad, List.rdropWhile_append_rtakeWhile]

/-- What a text of the alphabet is decoded to: its bits, if those that are left over are zero. -/
theorem decodeBase32Lower_charsOf (hds : ∀ d ∈ ds, d < 2 ^ 5)
    (hmod : ¬(ds.length % 8 = 1 ∨ ds.length % 8 = 3 ∨ ds.length % 8 = 6)) (p : ℕ) :
  decodeBase32Lower (padded (charsOf base32Lower ds) p)
    = if ofDigits 5 ds % 2 ^ spareBits 5 ds.length ≠ 0 then none
      else some (be (ds.length * 5 / 8) (ofDigits 5 ds / 2 ^ spareBits 5 ds.length))
  := by
  have hdrop : ∀ d ∈ ds.drop (8 * (ds.length / 8)), d < 2 ^ 5 :=
    fun d hd => hds d (List.mem_of_mem_drop hd)
  have hlen : (ds.drop (8 * (ds.length / 8))).length = ds.length % 8 := by
    rw [List.length_drop]
    omega
  have hspare : ds.length % 8 * 5 - (ds.length * 5 / 8 - ds.length / 8 * 5) * 8
      = spareBits 5 ds.length := by
    rw [spareBits]
    omega
  have hsmall := groupBits_lt (show 0 < 32 by decide) hds
  rw [← wholeGroups_symbols (ds.length / 8), wholeGroups_last, drop_charsOf] at hsmall
  have hlow := ofDigits_lt hdrop
  rw [hlen] at hlow
  have hnumber : ofDigits 5 ds = ofDigits 5 (ds.take (8 * (ds.length / 8)))
      * 2 ^ (ds.length % 8 * 5) + ofDigits 5 (ds.drop (8 * (ds.length / 8))) := by
    rw [← hlen, ← ofDigits_append, List.take_append_drop]
  have hbits : ds.length % 8 * 5
      = (ds.length * 5 / 8 - ds.length / 8 * 5) * 8 + spareBits 5 ds.length := by omega
  obtain ⟨hbytes, hzero⟩ := @be_high_low _ (ofDigits 5 (ds.take (8 * (ds.length / 8)))) _ _ _ hlow
    hbits (5 * (ds.length / 8))
  rw [← hnumber] at hbytes hzero
  rw [decodeBase32Lower, rdropWhile_padded (isAlphabet_base32.mem_charsOf hds), length_charsOf,
    if_neg hmod]
  dsimp only
  rw [wholeGroups_last, wholeGroups_bytes _ _ hds (by omega), drop_charsOf, length_charsOf, hlen,
    hspare, groupBits_snd _ hdrop, Nat.shiftLeft_eq, Nat.one_mul, Nat.and_two_pow_sub_one_eq_mod,
    ← hzero, if_pos hsmall, Nat.shiftRight_eq_div_pow, ← hbytes,
    show 5 * (ds.length / 8) + (ds.length * 5 / 8 - ds.length / 8 * 5) = ds.length * 5 / 8 by omega]

theorem decodeBase32_charsOf (hds : ∀ d ∈ ds, d < 2 ^ 5)
    (hmod : ¬(ds.length % 8 = 1 ∨ ds.length % 8 = 3 ∨ ds.length % 8 = 6)) (p : ℕ) :
  decodeBase32 (padded (charsOf base32Lower ds) p)
    = if ofDigits 5 ds % 2 ^ spareBits 5 ds.length ≠ 0 then none
      else some (be (ds.length * 5 / 8) (ofDigits 5 ds / 2 ^ spareBits 5 ds.length))
  := by
  rw [decodeBase32, rdropWhile_padded (isAlphabet_base32.mem_charsOf hds), length_charsOf,
    if_neg (by simpa using hmod), isAlphabet_base32.mapM_eq_some.mpr ⟨hds, rfl⟩]
  rfl

/-- What the decoder reads are characters of the alphabet and padding. -/
theorem exists_of_decodeBase32Lower (h : decodeBase32Lower s = some b) :
  ∃ ds p, (∀ d ∈ ds, d < 2 ^ 5)
    ∧ ¬(ds.length % 8 = 1 ∨ ds.length % 8 = 3 ∨ ds.length % 8 = 6)
    ∧ s = padded (charsOf base32Lower ds) p
  := by
  obtain ⟨p, hs⟩ := exists_padded s
  rw [decodeBase32Lower] at h
  generalize s.rdropWhile (· == char '=') = text at *
  dsimp only at h
  split_ifs at h with hmod hzero hsmall
  have hmem : ∀ c ∈ text, c ∈ base32Lower := by
    by_contra hbad
    have hle := le_groupBits 0 (s := text) (by simpa using hbad)
    rw [← wholeGroups_symbols (text.length / 8)] at hle
    exact absurd hsmall (not_lt.mpr hle)
  obtain ⟨ds, hds, rfl⟩ := isAlphabet_base32.exists_digits hmem
  rw [length_charsOf] at hmod
  exact ⟨ds, p, hds, hmod, hs⟩

/-- The bits of characters of the alphabet. -/
def base32Bits (c : Bytes) : List Bool := c.flatMap fun x => bits 5 (base32Lower.idxOf x)

theorem base32_idxOf :
  ∀ d < 2 ^ 5, base32Lower.idxOf (base32Lower.getD d 0) = d
  := by decide

theorem base32Bits_charsOf (hds : ∀ d ∈ ds, d < 2 ^ 5) :
  base32Bits (charsOf base32Lower ds) = bits (ds.length * 5) (ofDigits 5 ds)
  := by
  rw [base32Bits, charsOf, List.flatMap_map, ← flatMap_bits hds]
  apply List.flatMap_congr
  intro d hd
  rw [base32_idxOf d (hds d hd)]

/-- Digits spell a byte string and zeros if their bits do. -/
theorem base32Bits_eq (hds : ∀ d ∈ ds, d < 2 ^ 5) :
  base32Bits (charsOf base32Lower ds) = bitsOfBytes b ++ List.replicate spare false
    ↔ ds.length * 5 = b.length * 8 + spare ∧ ofDigits 5 ds = ofBe b * 2 ^ spare
  := by
  have hb : ofBe b * 2 ^ spare < 2 ^ (b.length * 8 + spare) := by
    rw [pow_add]
    apply Nat.mul_lt_mul_of_pos_right _ (by positivity)
    have hlt := ofBe_lt b
    rwa [show (256 : ℕ) = 2 ^ 8 by rfl, ← pow_mul, Nat.mul_comm] at hlt
  rw [base32Bits_charsOf hds, bitsOfBytes_eq, ← bits_shift]
  constructor
  · intro h
    have hlength := congrArg List.length h
    rw [length_bits, length_bits] at hlength
    refine ⟨hlength, ?_⟩
    rw [hlength] at h
    exact eq_of_bits h (hlength ▸ ofDigits_lt hds) hb
  · rintro ⟨hlength, hnumber⟩
    rw [hlength, hnumber]

/-- The decoder accepts the texts of whole groups of bits whose spare bits are zero, with any
padding. -/
theorem decodeBase32Lower_eq_some :
  decodeBase32Lower s = some b ↔ ∃ c p spare, s = padded c p ∧ (∀ x ∈ c, x ∈ base32Lower)
    ∧ spare < 5 ∧ base32Bits c = bitsOfBytes b ++ List.replicate spare false
  := by
  constructor
  · intro h
    obtain ⟨ds, p, hds, hmod, rfl⟩ := exists_of_decodeBase32Lower h
    rw [decodeBase32Lower_charsOf hds hmod] at h
    split_ifs at h with hzero
    cases h
    have hadd := spareBits_add 5 ds.length
    refine ⟨_, p, spareBits 5 ds.length, rfl, isAlphabet_base32.mem_charsOf hds, ?_, ?_⟩
    · exact spareBits_lt hmod
    · rw [base32Bits_eq hds, length_be, ofBe_be (lt_of_spareBits hds)]
      exact ⟨hadd.symm, (Nat.div_mul_cancel (Nat.dvd_of_mod_eq_zero (not_not.mp hzero))).symm⟩
  · rintro ⟨c, p, spare, rfl, hc, hspare, hbits⟩
    obtain ⟨ds, hds, rfl⟩ := isAlphabet_base32.exists_digits hc
    obtain ⟨hlength, hnumber⟩ := (base32Bits_eq hds).mp hbits
    have hlen : ds.length * 5 / 8 = b.length := by omega
    have heq : spareBits 5 ds.length = spare := by
      rw [spareBits, hlen]
      omega
    rw [decodeBase32Lower_charsOf hds (by omega), heq, hnumber, Nat.mul_mod_left,
      if_neg (by simp), Nat.mul_div_cancel _ (by positivity), hlen, be_ofBe]

/-- The two decoders agree. -/
theorem decodeBase32_of_decodeBase32Lower (h : decodeBase32Lower s = some b) :
  decodeBase32 s = some b
  := by
  obtain ⟨ds, p, hds, hmod, rfl⟩ := exists_of_decodeBase32Lower h
  rwa [decodeBase32_charsOf hds hmod, ← decodeBase32Lower_charsOf hds hmod]

/-- The text of a byte string is decoded to the byte string. -/
theorem decodeBase32Lower_encodeBits (data : Bytes) (p : ℕ) :
  decodeBase32Lower (padded (encodeBits 5 base32Lower data) p) = some data
  := by
  obtain ⟨ds, hds, hencode, hlength, hnumber⟩ :=
    encodeBits_digits (k := 5) (by decide) base32Lower data
  rw [hencode, decodeBase32Lower_eq_some]
  refine ⟨_, p, ds.length * 5 - data.length * 8, rfl, isAlphabet_base32.mem_charsOf hds, ?_, ?_⟩
  · omega
  · rw [base32Bits_eq hds]
    exact ⟨by omega, hnumber⟩

end Decoder

/-! ### The text of a CID -/

theorem decodeVarint_cons {byte : UInt8} (h : byte.toNat < 128) (bs : Bytes) :
  decodeVarint (byte :: bs) = some (byte.toNat, bs)
  := by
  rw [decodeVarint, decodeVarintFrom, if_neg (by omega), Nat.mod_eq_of_lt h, Nat.shiftLeft_zero,
    Nat.zero_or, if_pos h]

/-- The binary form of a CID is parsed as it. -/
theorem parse_toBytes (c : Cid) :
  CidParts.parse c.toBytes false
    = some { version := 1, codec := c.codec.code.toNat, hash := 0x12, digest := c.hash.val }
  := by
  have hcode : c.codec.code.toNat < 128 := by cases c.codec <;> decide
  rw [CidParts.parse, Cid.toBytes]
  simp only [decodeVarint_cons (show (0x01 : UInt8).toNat < 128 by decide),
    decodeVarint_cons hcode, decodeVarint_cons (show (0x12 : UInt8).toNat < 128 by decide),
    decodeVarint_cons (show (0x20 : UInt8).toNat < 128 by decide), Option.bind_eq_bind,
    Option.bind_some]
  simp [c.hash.property]

section

attribute [local instance] Base32Decoding.standard

theorem toAsciiLowercase_base32Upper :
  ∀ d < 2 ^ 5, toAsciiLowercase ((ascii "ABCDEFGHIJKLMNOPQRSTUVWXYZ234567").getD d 0)
    = base32Lower.getD d 0
  := by decide

theorem cidToString_eq (c : Cid) :
  cidToString c = char 'b' :: encodeBits 5 base32Lower c.toBytes
  := by
  show char 'b' :: (encodeBits 5 _ c.toBytes).map toAsciiLowercase = _
  rw [encodeBits, encodeBits, List.map_map]
  congr 1
  apply List.map_congr_left
  intro i _
  exact toAsciiLowercase_base32Upper _ (Nat.mod_lt _ (by positivity))

/-- The text of a CID is parsed as it, also as a link. -/
theorem parseCidString_cidToString (c : Cid) :
  parseCidString (cidToString c) = .ok c
  := by
  have hdecode := decodeBase32_of_decodeBase32Lower (decodeBase32Lower_encodeBits c.toBytes 0)
  rw [padded, List.replicate_zero, List.append_nil] at hdecode
  have hcode : c.codec.code.toNat = 0x71 ∨ c.codec.code.toNat = 0x55 := by cases c.codec <;> decide
  have hlength : ¬(char 'b' :: encodeBits 5 base32Lower c.toBytes).length > maxLinkLen := by
    rw [← cidToString_eq, length_cidToString]
    decide
  have hcodec : (if c.codec.code.toNat = 0x71 then Codec.drisl else .raw) = c.codec := by
    cases c.codec <;> rfl
  have hlink : parseLink (char 'b' :: encodeBits 5 base32Lower c.toBytes) = .ok (some c) := by
    have hhead : decide ((98 :: encodeBits 5 base32Lower c.toBytes).head? = some 81) = false := rfl
    rw [parseLink.eq_def, if_neg hlength, show char 'b' = 98 by decide]
    simp only [hdecode, Option.bind_some, hhead, parse_toBytes]
    rw [dif_pos ⟨trivial, hcode, trivial, c.hash.property⟩, hcodec]
  rw [cidToString_eq, parseCidString, hlink]

/-- A CID has one text, which both parsers read. Base32 is decoded from the texts of its language,
and from the text of every byte string with any padding. -/
theorem cid_text_canonical (s b : Bytes) (c : Cid) :
  (Cid.fromStr (cidToString c) = .ok c ∧ parseCidString (cidToString c) = .ok c)
    ∧ (Cid.fromStr s = .ok c → cidToString c = s ∧ parseCidString s = .ok c)
    ∧ (decodeBase32Lower s = some b ↔ ∃ c p spare, s = padded c p ∧ (∀ x ∈ c, x ∈ base32Lower)
      ∧ spare < 5 ∧ base32Bits c = bitsOfBytes b ++ List.replicate spare false)
    ∧ ∀ p, decodeBase32Lower (padded (encodeBits 5 base32Lower b) p) = some b
  := by
  refine ⟨⟨fromStr_cidToString c, parseCidString_cidToString c⟩, ?_, decodeBase32Lower_eq_some,
    decodeBase32Lower_encodeBits b⟩
  intro h
  have hs := cidToString_of_fromStr h
  exact ⟨hs, hs ▸ parseCidString_cidToString c⟩

end

end Shrike.Cbor
