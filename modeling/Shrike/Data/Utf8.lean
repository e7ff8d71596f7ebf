import Shrike.Data.Text

/-!
# Texts

Byte strings that are well-formed UTF-8, and the parts of them between characters.
-/

namespace Bytes

/-- A text: a byte string that is well-formed UTF-8. -/
abbrev Str := { bs : Bytes // utf8 bs = true }

/-- The text that a byte string spells. -/
def Str.fromUtf8 (bs : Bytes) : Option Str := if h : utf8 bs = true then some ⟨bs, h⟩ else none

/-- Whether a byte continues a character. -/
def isContinuation (b : UInt8) : Bool := 0x80 ≤ b && b < 0xc0

/-- Whether an index of a text does not fall within a character. -/
def isCharBoundary (bs : Bytes) (i : ℕ) : Bool :=
  match bs[i]? with
  | some b => i = 0 || !isContinuation b
  | none => i = bs.length

/-! ### Cutting between characters -/

theorem utf8From_zero (lo hi : UInt8) (bs : Bytes) :
  utf8From 0 lo hi bs = utf8 bs
  := by
  cases bs <;> rfl

variable {i stop start : ℕ} {bs ys : Bytes}

/-- Text that is cut before a byte that continues no character is text on both sides. -/
theorem utf8From_split (hys : ∀ b ∈ ys.head?, isContinuation b = false) :
  ∀ {xs : Bytes} {n : ℕ} {lo hi : UInt8}, 0x80 ≤ lo → hi ≤ 0xbf →
    utf8From n lo hi (xs ++ ys) = true → utf8From n lo hi xs = true ∧ utf8 ys = true
  | [], 0, lo, hi, _, _, h => ⟨rfl, by rwa [List.nil_append, utf8From_zero] at h⟩
  | [], n + 1, lo, hi, hlo, hhi, h => by
      rcases ys with - | ⟨b, ys⟩
      · cases h
      · have hb := hys b rfl
        rw [List.nil_append, utf8From, Bool.and_eq_true, Bool.and_eq_true, decide_eq_true_eq,
          decide_eq_true_eq] at h
        have hcontinues : isContinuation b = true := by
          rw [isContinuation, Bool.and_eq_true, decide_eq_true_eq, decide_eq_true_eq]
          have hle : b ≤ 0xbf := UInt8.le_trans h.1.2 hhi
          exact ⟨UInt8.le_trans hlo h.1.1, UInt8.lt_of_le_of_lt hle (by decide)⟩
        rw [hcontinues] at hb
        cases hb
  | b :: xs, 0, lo, hi, _, _, h => by
      rw [List.cons_append, utf8From] at h
      rw [utf8From]
      split_ifs at h ⊢ <;> exact utf8From_split hys (by decide) (by decide) h
  | b :: xs, n + 1, lo, hi, _, _, h => by
      rw [List.cons_append, utf8From, Bool.and_eq_true] at h
      obtain ⟨hxs, hrest⟩ := utf8From_split hys (by decide) (by decide) h.2
      exact ⟨by rw [utf8From, h.1, hxs]; rfl, hrest⟩

theorem head?_drop_of_isCharBoundary (hi : 0 < i) (h : isCharBoundary bs i = true) :
  ∀ b ∈ (bs.drop i).head?, isContinuation b = false
  := by
  intro b hb
  rw [List.head?_drop] at hb
  rw [isCharBoundary, hb] at h
  simpa [Nat.ne_of_gt hi] using h

/-- A text is cut between characters into texts. -/
theorem utf8_take_drop (hbs : utf8 bs = true) (h : isCharBoundary bs i = true) :
  utf8 (bs.take i) = true ∧ utf8 (bs.drop i) = true
  := by
  rcases Nat.eq_zero_or_pos i with rfl | hi
  · exact ⟨rfl, hbs⟩
  · rw [← List.take_append_drop i bs] at hbs
    exact utf8From_split (head?_drop_of_isCharBoundary hi h) (by decide) (by decide) hbs

/-- The part of a text between two places that do not fall within a character is a text. -/
theorem utf8_range (hbs : utf8 bs = true) (hle : start ≤ stop)
    (hstart : isCharBoundary bs start = true) (hstop : isCharBoundary bs stop = true) :
  utf8 ((bs.take stop).drop start) = true
  := by
  have hdrop := (utf8_take_drop hbs hstart).2
  rw [List.drop_take]
  rcases Nat.eq_or_lt_of_le hle with rfl | hlt
  · rw [Nat.sub_self]
    rfl
  · have hboundary : isCharBoundary (bs.drop start) (stop - start) = true := by
      rw [isCharBoundary, List.getElem?_drop, Nat.add_sub_cancel' hle, List.length_drop]
      rw [isCharBoundary] at hstop
      split at hstop
      · rename_i b hb
        rw [hb]
        simp only [Bool.or_eq_true, decide_eq_true_eq] at hstop ⊢
        exact .inr (hstop.resolve_left (by omega))
      · rename_i hb
        rw [hb]
        simp only [decide_eq_true_eq] at hstop ⊢
        omega
    exact (utf8_take_drop hdrop hboundary).1

/-- The part of a text between two places, if it is a text. -/
def Str.get (s : Str) (start stop : ℕ) : Option Str :=
  if h : start ≤ stop ∧ isCharBoundary s.val start = true ∧ isCharBoundary s.val stop = true then
    some ⟨(s.val.take stop).drop start, utf8_range s.property h.1 h.2.1 h.2.2⟩
  else none

theorem Str.val_get {s t : Str} (h : s.get start stop = some t) :
  t.val = (s.val.take stop).drop start
  := by
  rw [Str.get] at h
  split_ifs at h
  cases h
  rfl

/-- No place of an ASCII text is within a character. -/
theorem isCharBoundary_of_ascii (h : ∀ b ∈ bs, b < 0x80) (hi : i ≤ bs.length) :
  isCharBoundary bs i = true
  := by
  rw [isCharBoundary]
  split
  · rename_i b hb
    have hlt := UInt8.not_le.mpr (h b (List.mem_of_getElem? hb))
    rw [isContinuation, decide_eq_false hlt, Bool.false_and, Bool.not_false, Bool.or_true]
  · rename_i hb
    exact decide_eq_true (Nat.le_antisymm hi (List.getElem?_eq_none_iff.mp hb))

/-- An ASCII text has all of its parts. -/
theorem Str.get_of_ascii {s : Str} (h : ∀ b ∈ s.val, b < 0x80)
    (hle : start ≤ stop) (hstop : stop ≤ s.val.length) :
  ∃ t, s.get start stop = some t ∧ t.val = (s.val.take stop).drop start
  := by
  rw [Str.get, dif_pos ⟨hle, isCharBoundary_of_ascii h (Nat.le_trans hle hstop),
    isCharBoundary_of_ascii h hstop⟩]
  exact ⟨_, rfl, rfl⟩

end Bytes

/-!
## Slices

Parts of a text that are taken between two places. There is no part if a place is outside the text
or within a character.
-/

namespace Bytes

/-- The part of a text between two places. -/
def slice (bs : Bytes) (start stop : ℕ) : Option Bytes :=
  if start ≤ stop ∧ isCharBoundary bs start = true ∧ isCharBoundary bs stop = true then
    some ((bs.take stop).drop start)
  else none

/-- Where the first occurrence of a byte is. -/
def find (sep : UInt8) (bs : Bytes) : Option ℕ := bs.idxOf? sep

variable {x y z bs : Bytes}

/-- What a place cuts off an ASCII text. -/
theorem slice_append (h : IsAscii (x ++ y ++ z)) :
  slice (x ++ y ++ z) x.length (x.length + y.length) = some y
  := by
  have hlen : (x ++ y ++ z).length = x.length + y.length + z.length := by
    rw [List.length_append, List.length_append]
  rw [slice, if_pos]
  · rw [← List.length_append, List.take_left, List.drop_left]
  · refine ⟨by omega, isCharBoundary_of_ascii h (by omega), isCharBoundary_of_ascii h (by omega)⟩

/-- The start of an ASCII text. -/
theorem slice_left (h : IsAscii (x ++ y)) :
  slice (x ++ y) 0 x.length = some x
  := by
  have hslice := @slice_append [] x y h
  rwa [List.nil_append, List.length_nil, Nat.zero_add] at hslice

/-- The rest of an ASCII text. -/
theorem slice_right (h : IsAscii (x ++ y)) :
  slice (x ++ y) x.length (x ++ y).length = some y
  := by
  have hslice := @slice_append x y [] (by rwa [List.append_nil])
  rwa [List.append_nil, ← List.length_append] at hslice

theorem find_append {sep : UInt8} (h : sep ∉ x) (y : Bytes) :
  find sep (x ++ sep :: y) = some x.length
  := by
  induction x with
  | nil =>
      rw [List.nil_append, find, List.idxOf?_cons, beq_self_eq_true]
      rfl
  | cons b x ih =>
      obtain ⟨hne, hx⟩ := List.ne_and_not_mem_of_not_mem_cons h
      have hrest := ih hx
      rw [find] at hrest ⊢
      rw [List.cons_append, List.idxOf?_cons, beq_false_of_ne (Ne.symm hne), hrest]
      rfl

theorem find_eq_none {sep : UInt8} (h : sep ∉ bs) :
  find sep bs = none
  := List.idxOf?_eq_none_iff.mpr h

end Bytes
