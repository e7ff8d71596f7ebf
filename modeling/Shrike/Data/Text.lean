import Mathlib.Data.List.DropRight
import Mathlib.Data.List.Infix
import Shrike.Data.Bytes

/-!
# Text

Texts as the byte strings of their UTF-8 form: the classes of ASCII characters, splitting,
joining and replacing, and the order by UTF-16 code units.
-/

namespace Bytes

/-- The bytes of an ASCII text. -/
def ascii (s : String) : Bytes := s.toList.map fun c => UInt8.ofNat c.toNat

/-- The byte of an ASCII character. -/
def char (c : Char) : UInt8 := UInt8.ofNat c.toNat

/-! ### Classes of characters -/

def isAsciiDigit (b : UInt8) : Bool := 48 ≤ b && b ≤ 57

def isAsciiUppercase (b : UInt8) : Bool := 65 ≤ b && b ≤ 90

def isAsciiLowercase (b : UInt8) : Bool := 97 ≤ b && b ≤ 122

def isAsciiAlphabetic (b : UInt8) : Bool := isAsciiUppercase b || isAsciiLowercase b

def isAsciiAlphanumeric (b : UInt8) : Bool := isAsciiAlphabetic b || isAsciiDigit b

/-- A character in lower case. -/
def toAsciiLowercase (b : UInt8) : UInt8 := if isAsciiUppercase b then b + 32 else b

/-- A text with its first `n` characters in lower case. -/
def lowercasePrefix (n : ℕ) (bs : Bytes) : Bytes := (bs.take n).map toAsciiLowercase ++ bs.drop n

/-- Whether two texts differ at most in the case of ASCII letters. -/
def eqIgnoreAsciiCase (bs bs' : Bytes) : Bool := bs.map toAsciiLowercase == bs'.map toAsciiLowercase

theorem toAsciiLowercase_idem (b : UInt8) :
  toAsciiLowercase (toAsciiLowercase b) = toAsciiLowercase b
  := by
  rw [toAsciiLowercase]
  split_ifs with h
  · rw [toAsciiLowercase] at h ⊢
    split_ifs at h ⊢ with hb
    · simp only [isAsciiUppercase, Bool.and_eq_true, decide_eq_true_eq, UInt8.le_iff_toNat_le,
        UInt8.toNat_add, UInt8.reduceToNat] at h hb
      omega
    · exact absurd h hb
  · rfl

theorem map_toAsciiLowercase_idem (bs : Bytes) :
  (bs.map toAsciiLowercase).map toAsciiLowercase = bs.map toAsciiLowercase
  := by
  rw [List.map_map]
  exact List.map_congr_left fun b _ => toAsciiLowercase_idem b

theorem lowercasePrefix_idem (n : ℕ) (bs : Bytes) :
  lowercasePrefix n (lowercasePrefix n bs) = lowercasePrefix n bs
  := by
  rcases Nat.le_total n bs.length with h | h
  · have hlength : ((bs.take n).map toAsciiLowercase).length = n := by
      rw [List.length_map, List.length_take_of_le h]
    rw [lowercasePrefix, lowercasePrefix, List.take_left' hlength, List.drop_left' hlength,
      map_toAsciiLowercase_idem]
  · rw [lowercasePrefix, lowercasePrefix, List.drop_eq_nil_of_le h, List.append_nil,
      List.take_of_length_le h, List.take_of_length_le (by rwa [List.length_map]),
      map_toAsciiLowercase_idem, List.drop_eq_nil_of_le (by rwa [List.length_map]), List.append_nil]

theorem isAsciiAlphabetic_toAsciiLowercase (b : UInt8) :
  isAsciiAlphabetic (toAsciiLowercase b) = isAsciiAlphabetic b
  := by
  rw [toAsciiLowercase]
  split_ifs with h
  · rw [Bool.eq_iff_iff]
    simp only [isAsciiAlphabetic, isAsciiUppercase, isAsciiLowercase, Bool.or_eq_true,
      Bool.and_eq_true, decide_eq_true_eq, UInt8.le_iff_toNat_le, UInt8.toNat_add,
      UInt8.reduceToNat] at h ⊢
    omega
  · rfl

theorem isAsciiAlphanumeric_toAsciiLowercase (b : UInt8) :
  isAsciiAlphanumeric (toAsciiLowercase b) = isAsciiAlphanumeric b
  := by
  rw [isAsciiAlphanumeric, isAsciiAlphabetic_toAsciiLowercase, isAsciiAlphanumeric]
  have hdigit : isAsciiDigit (toAsciiLowercase b) = isAsciiDigit b := by
    rw [toAsciiLowercase]
    split_ifs with h
    · rw [Bool.eq_iff_iff]
      simp only [isAsciiDigit, isAsciiUppercase, Bool.and_eq_true, decide_eq_true_eq,
        UInt8.le_iff_toNat_le, UInt8.toNat_add, UInt8.reduceToNat] at h ⊢
      omega
    · rfl
  rw [hdigit]

/-- What is no letter is not changed, and nothing else becomes it. -/
theorem toAsciiLowercase_eq_iff {b c : UInt8} (h : isAsciiAlphabetic c = false) :
  toAsciiLowercase b = c ↔ b = c
  := by
  constructor
  · rintro rfl
    rw [isAsciiAlphabetic_toAsciiLowercase, isAsciiAlphabetic, Bool.or_eq_false_iff] at h
    rw [toAsciiLowercase, h.1, if_neg Bool.false_ne_true]
  · rintro rfl
    rw [isAsciiAlphabetic, Bool.or_eq_false_iff] at h
    rw [toAsciiLowercase, h.1, if_neg Bool.false_ne_true]

/-- A byte string of ASCII characters. -/
def IsAscii (bs : Bytes) : Prop := ∀ b ∈ bs, b < 0x80

instance (bs : Bytes) : Decidable (IsAscii bs) := inferInstanceAs (Decidable (∀ b ∈ bs, b < 0x80))

variable {bs bs' : Bytes} {b sep : UInt8}

theorem isAscii_cons :
  IsAscii (b :: bs) ↔ b < 0x80 ∧ IsAscii bs
  := List.forall_mem_cons

theorem isAscii_append :
  IsAscii (bs ++ bs') ↔ IsAscii bs ∧ IsAscii bs'
  := List.forall_mem_append

theorem IsAscii.utf8 (h : IsAscii bs) :
  utf8 bs = true
  := utf8_of_ascii h

theorem lt_of_isAsciiAlphanumeric (h : isAsciiAlphanumeric b = true) :
  b < 0x80
  := by
  simp only [isAsciiAlphanumeric, isAsciiAlphabetic, isAsciiUppercase, isAsciiLowercase,
    isAsciiDigit, Bool.or_eq_true, Bool.and_eq_true, decide_eq_true_eq] at h
  simp only [UInt8.le_iff_toNat_le, UInt8.lt_iff_toNat_lt] at h ⊢
  simp only [UInt8.reduceToNat] at h ⊢
  omega

/-! ### Splitting -/

/-- The text after a prefix. -/
def stripPrefix (pre : Bytes) (bs : Bytes) : Option Bytes :=
  if pre.isPrefixOf bs then some (bs.drop pre.length) else none

/-- The texts before and after the first occurrence of a separator. -/
def splitOnce (sep : UInt8) : Bytes → Option (Bytes × Bytes)
  | [] => none
  | b :: bs =>
      if b = sep then some ([], bs)
      else (splitOnce sep bs).map fun parts => (b :: parts.1, parts.2)

/-- Where the last occurrence of a separator is. -/
def rfind (sep : UInt8) : Bytes → Option ℕ
  | [] => none
  | b :: bs =>
      match rfind sep bs with
      | some i => some (i + 1)
      | none => if b = sep then some 0 else none

/-- The texts before and after the last occurrence of a separator. -/
def rsplitOnce (sep : UInt8) (bs : Bytes) : Option (Bytes × Bytes) :=
  (rfind sep bs).map fun i => (bs.take i, bs.drop (i + 1))

/-- The texts that separators delimit, joined again. -/
def join (sep : UInt8) (parts : List Bytes) : Bytes := [sep].intercalate parts

@[simp]
theorem stripPrefix_append (pre bs : Bytes) :
  stripPrefix pre (pre ++ bs) = some bs
  := by
  rw [stripPrefix, if_pos]
  · rw [List.drop_left]
  · rw [List.isPrefixOf_iff_prefix]
    apply List.prefix_append

theorem splitOnce_append (h : sep ∉ bs) :
  splitOnce sep (bs ++ sep :: bs') = some (bs, bs')
  := by
  induction bs with
  | nil =>
      rw [List.nil_append, splitOnce, if_pos rfl]
  | cons b bs ih =>
      obtain ⟨hne, hbs⟩ := List.ne_and_not_mem_of_not_mem_cons h
      rw [List.cons_append, splitOnce, if_neg hne.symm, ih hbs]
      rfl

theorem rfind_eq_none (h : sep ∉ bs) :
  rfind sep bs = none
  := by
  induction bs with
  | nil => rfl
  | cons b bs ih =>
      obtain ⟨hne, hbs⟩ := List.ne_and_not_mem_of_not_mem_cons h
      rw [rfind, ih hbs]
      exact if_neg hne.symm

theorem rfind_append (bs' : Bytes) (h : sep ∉ bs) :
  rfind sep (bs' ++ sep :: bs) = some bs'.length
  := by
  induction bs' with
  | nil =>
      rw [List.nil_append, rfind, rfind_eq_none h]
      exact if_pos rfl
  | cons b bs' ih =>
      rw [List.cons_append, rfind, ih]
      rfl

theorem not_mem_of_rfind_eq_none (h : rfind b bs = none) :
  b ∉ bs
  := by
  induction bs with
  | nil => exact List.not_mem_nil
  | cons c bs ih =>
      rw [rfind] at h
      split at h
      · cases h
      · rename_i hnone
        split at h
        · cases h
        · rename_i hne
          rw [List.mem_cons, not_or]
          exact ⟨fun heq => hne heq.symm, ih hnone⟩

theorem rfind_eq_some {i : ℕ} (h : rfind b bs = some i) :
  ∃ left right, bs = left ++ b :: right ∧ left.length = i ∧ b ∉ right
  := by
  induction bs generalizing i with
  | nil => cases h
  | cons c bs ih =>
      rw [rfind] at h
      split at h
      · rename_i j hj
        cases h
        obtain ⟨left, right, rfl, hlength, hright⟩ := ih hj
        exact ⟨c :: left, right, rfl, by rw [List.length_cons, hlength], hright⟩
      · rename_i hnone
        split at h
        · rename_i heq
          cases h
          exact ⟨[], bs, by rw [heq]; rfl, rfl, not_mem_of_rfind_eq_none hnone⟩
        · cases h

theorem rsplitOnce_some {bs left right : Bytes} (h : rsplitOnce sep bs = some (left, right)) :
  bs = left ++ sep :: right
  := by
  obtain ⟨i, hfind, hparts⟩ := Option.map_eq_some_iff.mp h
  obtain ⟨left', right', rfl, rfl, -⟩ := rfind_eq_some hfind
  obtain ⟨rfl, rfl⟩ := Prod.mk.inj hparts
  simp

variable {x x' y y' right : Bytes}

theorem rsplitOnce_append (left : Bytes) (h : sep ∉ right) :
  rsplitOnce sep (left ++ sep :: right) = some (left, right)
  := by
  rw [rsplitOnce, rfind_append left h]
  simp

/-- What follows the last occurrence of a separator says where it is. -/
theorem length_le_of_append (h : x ++ sep :: y = x' ++ sep :: y') (hy' : sep ∉ y') :
  x.length ≤ x'.length
  := by
  by_contra hlt
  obtain ⟨z, rfl⟩ : ∃ z, x = x' ++ sep :: z := by
    have hle : x'.length < x.length := Nat.lt_of_not_le hlt
    have htake := congrArg (List.take x.length) h
    rw [List.take_left, List.take_append, List.take_of_length_le (Nat.le_of_lt hle)] at htake
    obtain ⟨n, hn⟩ := Nat.exists_eq_add_of_lt hle
    rw [show x.length - x'.length = n + 1 by omega, List.take_succ_cons] at htake
    exact ⟨_, htake⟩
  rw [List.append_assoc, List.append_cancel_left_eq, List.cons_append, List.cons.injEq] at h
  apply hy'
  rw [← h.2]
  simp

/-- A text is split at the last occurrence of a separator in one way. -/
theorem split_unique (h : x ++ sep :: y = x' ++ sep :: y') (hy : sep ∉ y) (hy' : sep ∉ y') :
  x = x' ∧ y = y'
  := by
  have hlen := Nat.le_antisymm (length_le_of_append h hy') (length_le_of_append h.symm hy)
  obtain ⟨hx, hrest⟩ := List.append_inj h hlen
  exact ⟨hx, (List.cons.inj hrest).2⟩

theorem splitOnce_eq_none (h : sep ∉ bs) :
  splitOnce sep bs = none
  := by
  induction bs with
  | nil => rfl
  | cons b bs ih =>
      obtain ⟨hne, hbs⟩ := List.ne_and_not_mem_of_not_mem_cons h
      rw [splitOnce, if_neg hne.symm, ih hbs]
      rfl

theorem splitOnce_some {bs left right : Bytes} (h : splitOnce sep bs = some (left, right)) :
  bs = left ++ sep :: right
  := by
  induction bs generalizing left with
  | nil => cases h
  | cons b bs ih =>
      rw [splitOnce] at h
      split at h
      · rename_i hb
        cases h
        rw [hb]
        rfl
      · obtain ⟨parts, hparts, heq⟩ := Option.map_eq_some_iff.mp h
        cases heq
        rw [List.cons_append, ← ih hparts]

/-- There is no separator before the first one. -/
theorem not_mem_of_splitOnce {bs left right : Bytes} (h : splitOnce sep bs = some (left, right)) :
  sep ∉ left
  := by
  induction bs generalizing left with
  | nil => cases h
  | cons b bs ih =>
      rw [splitOnce] at h
      split at h
      · cases h
        exact List.not_mem_nil
      · rename_i hne
        obtain ⟨parts, hparts, heq⟩ := Option.map_eq_some_iff.mp h
        cases heq
        intro hmem
        rcases List.mem_cons.mp hmem with hsep | hmem
        · exact hne hsep.symm
        · exact ih hparts hmem

theorem stripPrefix_some {pre bs rest : Bytes} (h : stripPrefix pre bs = some rest) :
  bs = pre ++ rest
  := by
  rw [stripPrefix] at h
  split at h
  · rename_i hpre
    obtain ⟨bs', rfl⟩ := List.isPrefixOf_iff_prefix.mp hpre
    cases h
    rw [List.drop_left]
  · cases h

/-- The parts that a separator delimits do not contain it. -/
theorem not_mem_of_mem_splitOn {bs part : Bytes} (h : part ∈ bs.splitOn sep) :
  sep ∉ part
  := by
  induction bs generalizing part with
  | nil =>
      rw [List.splitOn_nil, List.mem_singleton] at h
      rw [h]
      exact List.not_mem_nil
  | cons b bs ih =>
      rw [List.splitOn_cons_eq_if_modifyHead] at h
      split at h
      · rcases List.mem_cons.mp h with rfl | h
        · exact List.not_mem_nil
        · exact ih h
      · rename_i hb
        obtain ⟨first, parts, hparts⟩ := List.exists_cons_of_ne_nil (List.splitOn_ne_nil sep bs)
        rw [hparts] at h ih
        rcases List.mem_cons.mp h with rfl | h
        · intro hmem
          rcases List.mem_cons.mp hmem with rfl | hmem
          · exact hb (beq_self_eq_true _)
          · exact ih List.mem_cons_self hmem
        · exact ih (List.mem_cons_of_mem _ h)

theorem join_cons_cons (sep : UInt8) (part next : Bytes) (parts : List Bytes) :
  join sep (part :: next :: parts) = part ++ sep :: join sep (next :: parts)
  := by
  rw [join, List.intercalate_cons_cons, List.append_assoc]
  rfl

@[simp]
theorem join_singleton (sep : UInt8) (part : Bytes) :
  join sep [part] = part
  := List.intercalate_singleton

theorem join_concat (sep : UInt8) {parts : List Bytes} (h : parts ≠ []) (part : Bytes) :
  join sep (parts ++ [part]) = join sep parts ++ sep :: part
  := by
  induction parts with
  | nil => exact absurd rfl h
  | cons first parts ih =>
      cases parts with
      | nil => rw [List.singleton_append, join_cons_cons, join_singleton, join_singleton]
      | cons next parts =>
          have hrest := ih (List.cons_ne_nil next parts)
          rw [List.cons_append] at hrest
          rw [join_cons_cons, List.cons_append, List.cons_append, join_cons_cons, hrest,
            List.append_assoc, List.cons_append]

theorem mem_join {parts : List Bytes} (h : b ∈ join sep parts) :
  b = sep ∨ ∃ part ∈ parts, b ∈ part
  := by
  induction parts with
  | nil => cases h
  | cons part parts ih =>
      cases parts with
      | nil =>
          rw [join_singleton] at h
          exact .inr ⟨part, List.mem_cons_self, h⟩
      | cons next parts =>
          rw [join_cons_cons, List.mem_append, List.mem_cons] at h
          rcases h with h | h | h
          · exact .inr ⟨part, List.mem_cons_self, h⟩
          · exact .inl h
          · rcases ih h with h | ⟨part', hpart', h⟩
            · exact .inl h
            · exact .inr ⟨part', List.mem_cons_of_mem _ hpart', h⟩

/-- The characters of a text are separators, or in one of the parts that these delimit. -/
theorem mem_splitOn (h : b ∈ bs) :
  b = sep ∨ ∃ part ∈ bs.splitOn sep, b ∈ part
  := by
  apply mem_join
  rwa [join, List.intercalate_splitOn]

/-- A text with its characters changed, but no separator changed or made, is split at the same
places. -/
theorem splitOn_map {f : UInt8 → UInt8} (hf : ∀ b, f b = sep ↔ b = sep) (bs : Bytes) :
  (bs.map f).splitOn sep = (bs.splitOn sep).map (List.map f)
  := by
  induction bs with
  | nil => rfl
  | cons b bs ih =>
      rw [List.map_cons, List.splitOn_cons_eq_if_modifyHead, List.splitOn_cons_eq_if_modifyHead, ih]
      have hbeq : (f b == sep) = (b == sep) := by
        rw [Bool.eq_iff_iff, beq_iff_eq, beq_iff_eq]
        exact hf b
      rw [hbeq]
      split_ifs
      · rfl
      · cases bs.splitOn sep with
        | nil => rfl
        | cons part parts => rfl

/-! ### White space -/

/-- The length of the white space character that a text starts with, zero if it starts with
another one. -/
def whitespaceLength : Bytes → ℕ
  | 0xc2 :: b :: _ => if b = 0x85 ∨ b = 0xa0 then 2 else 0
  | 0xe1 :: 0x9a :: 0x80 :: _ => 3
  | 0xe2 :: 0x80 :: c :: _ =>
      if (0x80 ≤ c ∧ c ≤ 0x8a) ∨ c = 0xa8 ∨ c = 0xa9 ∨ c = 0xaf then 3 else 0
  | 0xe2 :: 0x81 :: 0x9f :: _ => 3
  | 0xe3 :: 0x80 :: 0x80 :: _ => 3
  | a :: _ => if (9 ≤ a ∧ a ≤ 13) ∨ a = 32 then 1 else 0
  | [] => 0

/-- The words of a text, where `skip` bytes of a white space character are still to come and
`word` is the word so far. -/
def wordsFrom : ℕ → Bytes → Bytes → List Bytes
  | _, word, [] => if word = [] then [] else [word]
  | skip + 1, word, _ :: bs => wordsFrom skip word bs
  | 0, word, b :: bs =>
      match whitespaceLength (b :: bs) with
      | 0 => wordsFrom 0 (word ++ [b]) bs
      | n + 1 => if word = [] then wordsFrom n [] bs else word :: wordsFrom n [] bs

/-- The words of a text. -/
def splitWhitespace (bs : Bytes) : List Bytes := wordsFrom 0 [] bs

/-- A text without the white space at its start, where `skip` bytes of a white space character are
still to come. -/
def trimStartFrom : ℕ → Bytes → Bytes
  | _, [] => []
  | skip + 1, _ :: bs => trimStartFrom skip bs
  | 0, b :: bs =>
      match whitespaceLength (b :: bs) with
      | 0 => b :: bs
      | n + 1 => trimStartFrom n bs

/-- A text without the white space at its start. -/
def trimStart (bs : Bytes) : Bytes := trimStartFrom 0 bs

/-- A text without the white space at its end. -/
def trimEnd : Bytes → Bytes
  | [] => []
  | b :: bs => if trimStart (b :: bs) = [] then [] else b :: trimEnd bs

/-- A text without the white space at its start and at its end. -/
def trim (bs : Bytes) : Bytes := trimEnd (trimStart bs)

/-- A text without the bytes `b` at its start. -/
def trimStartMatches (b : UInt8) (bs : Bytes) : Bytes := bs.dropWhile (· = b)

/-- A text without the bytes `b` at its end. -/
def trimEndMatches (b : UInt8) (bs : Bytes) : Bytes := bs.rdropWhile (· = b)

theorem trimStartMatches_of_not_mem (h : b ∉ bs) :
  trimStartMatches b bs = bs
  := by
  cases bs with
  | nil => rfl
  | cons a bs =>
      rw [trimStartMatches, List.dropWhile_cons_of_neg]
      simpa using (List.ne_of_not_mem_cons h).symm

@[simp]
theorem trimStartMatches_cons_self (b : UInt8) (bs : Bytes) :
  trimStartMatches b (b :: bs) = trimStartMatches b bs
  := List.dropWhile_cons_of_pos (decide_eq_true rfl)

@[simp]
theorem trimEndMatches_concat_self (b : UInt8) (bs : Bytes) :
  trimEndMatches b (bs ++ [b]) = trimEndMatches b bs
  := List.rdropWhile_concat_pos (fun a => decide (a = b)) bs b (decide_eq_true rfl)

theorem trimEndMatches_of_not_mem (h : b ∉ bs) :
  trimEndMatches b bs = bs
  := by
  rw [trimEndMatches, List.rdropWhile, ← trimStartMatches, trimStartMatches_of_not_mem,
    List.reverse_reverse]
  rwa [List.mem_reverse]

/-! ### UTF-16 -/

/-- The code units of a code point. -/
def codeUnits (c : ℕ) : List ℕ :=
  if c < 0x10000 then [c] else [0xd800 + (c - 0x10000) / 0x400, 0xdc00 + (c - 0x10000) % 0x400]

/-- The UTF-16 code units of a text. -/
def encodeUtf16 : Bytes → List ℕ
  | [] => []
  | a :: bs =>
      if a < 0x80 then a.toNat :: encodeUtf16 bs
      else
        match bs with
        | b :: cs =>
            if a < 0xe0 then codeUnits (a.toNat % 32 * 64 + b.toNat % 64) ++ encodeUtf16 cs
            else
              match cs with
              | c :: ds =>
                  if a < 0xf0 then
                    codeUnits ((a.toNat % 16 * 64 + b.toNat % 64) * 64 + c.toNat % 64) ++
                      encodeUtf16 ds
                  else
                    match ds with
                    | d :: es =>
                        codeUnits (((a.toNat % 8 * 64 + b.toNat % 64) * 64 + c.toNat % 64) * 64 +
                          d.toNat % 64) ++ encodeUtf16 es
                    | [] => []
              | [] => []
        | [] => []

end Bytes
