import Shrike.Data.Utf8

/-!
# Lower case

Texts in lower case. The letters of ASCII are mapped here; those of the rest of Unicode are mapped
by tables, of which only is needed that they map letters to letters.
-/

namespace Bytes

/-! ### Characters -/

/-- The characters of a text. -/
def characters : Bytes → List Bytes
  | [] => []
  | b :: bs =>
      match characters bs with
      | [] => [[b]]
      | c :: cs => if c.head?.any isContinuation then (b :: c) :: cs else [b] :: c :: cs

/-- A character is one byte below 0x80, or none of its bytes is. -/
def IsCharacter (c : Bytes) : Prop := (∃ b < 0x80, c = [b]) ∨ ∀ b ∈ c, 0x80 ≤ b

theorem flatten_characters (bs : Bytes) :
  (characters bs).flatten = bs
  := by
  induction bs with
  | nil => rfl
  | cons b bs ih =>
      rw [characters]
      split
      · rename_i hnil
        rw [hnil] at ih
        rw [← ih]
        rfl
      · rename_i c cs hcons
        rw [hcons] at ih
        split_ifs
        · rw [← ih]
          rfl
        · rw [← ih]
          rfl

theorem ne_nil_of_mem_characters {bs c : Bytes} (h : c ∈ characters bs) :
  c ≠ []
  := by
  induction bs with
  | nil => cases h
  | cons b bs ih =>
      rw [characters] at h
      split at h
      · rw [List.mem_singleton.mp h]
        exact List.cons_ne_nil b []
      · rename_i c' cs hcons
        split_ifs at h
        · rcases List.mem_cons.mp h with rfl | h
          · exact List.cons_ne_nil b c'
          · exact ih (hcons ▸ List.mem_cons_of_mem c' h)
        · rcases List.mem_cons.mp h with rfl | h
          · exact List.cons_ne_nil b []
          · exact ih (hcons ▸ h)

variable {bs bs' text : Bytes}

variable {b hi lo : UInt8} {cs : List Bytes}

/-- A text does not begin with a byte that continues a character. -/
theorem utf8From_zero_head (h : utf8From 0 lo hi (b :: bs) = true) :
  isContinuation b = false
  := by
  by_contra hcontinues
  rw [Bool.not_eq_false, isContinuation, Bool.and_eq_true, decide_eq_true_eq,
    decide_eq_true_eq] at hcontinues
  have hascii : ¬b < 0x80 := UInt8.not_lt.mpr hcontinues.1
  have hlead : b < 0xc2 := UInt8.lt_trans hcontinues.2 (by decide)
  rw [utf8From, if_neg hascii, if_pos hlead] at h
  cases h

/-- The first byte of a character says how many bytes are to follow, and in which range the next
one is. -/
theorem utf8From_zero_cons (b : UInt8) :
  b < 0x80 ∨ (∀ lo hi bs, utf8From 0 lo hi (b :: bs) = false) ∨
    0x80 ≤ b ∧ ∃ n lo hi, 0x80 ≤ lo ∧ hi < 0xc0 ∧
      ∀ lo' hi' bs, utf8From 0 lo' hi' (b :: bs) = utf8From (n + 1) lo hi bs
  := by
  by_cases hascii : b < 0x80
  · exact .inl hascii
  · right
    have hle : 0x80 ≤ b := UInt8.not_lt.mp hascii
    simp only [utf8From, if_neg hascii]
    split_ifs
    · exact .inl fun _ _ _ => rfl
    · exact .inr ⟨hle, 0, 0x80, 0xbf, by decide, by decide, fun _ _ _ => rfl⟩
    · exact .inr ⟨hle, 1, 0xa0, 0xbf, by decide, by decide, fun _ _ _ => rfl⟩
    · exact .inr ⟨hle, 1, 0x80, 0x9f, by decide, by decide, fun _ _ _ => rfl⟩
    · exact .inr ⟨hle, 1, 0x80, 0xbf, by decide, by decide, fun _ _ _ => rfl⟩
    · exact .inr ⟨hle, 2, 0x90, 0xbf, by decide, by decide, fun _ _ _ => rfl⟩
    · exact .inr ⟨hle, 2, 0x80, 0xbf, by decide, by decide, fun _ _ _ => rfl⟩
    · exact .inr ⟨hle, 2, 0x80, 0x8f, by decide, by decide, fun _ _ _ => rfl⟩
    · exact .inl fun _ _ _ => rfl

theorem characters_cons_of_continues {bs c : Bytes}
    (h : characters bs = c :: cs) (hc : c.head?.any isContinuation = true) :
  characters (b :: bs) = (b :: c) :: cs
  := by
  rw [characters, h]
  dsimp only
  rw [if_pos hc]

theorem characters_cons (b : UInt8) (hbs : ∀ b' bs', bs = b' :: bs' → isContinuation b' = false) :
  characters (b :: bs) = [b] :: characters bs
  := by
  rw [characters]
  split
  · rename_i hnil
    rw [hnil]
  · rename_i c cs hcons
    have hflatten := flatten_characters bs
    rw [hcons] at hflatten
    have hhead : c.head?.any isContinuation = false := by
      cases c with
      | nil => rfl
      | cons b' c => exact hbs b' _ hflatten.symm
    rw [hhead, if_neg Bool.false_ne_true, hcons]

/-- The characters of a text that continues: they are texts, but for the first one, which is
completed first. -/
theorem utf8From_characters {n : ℕ} (hlo : 0x80 ≤ lo) (hhi : hi < 0xc0)
    (h : utf8From n lo hi bs = true) :
  (n = 0 → ∀ c ∈ characters bs, utf8 c = true ∧ IsCharacter c) ∧
    (n ≠ 0 → ∃ c cs, characters bs = c :: cs ∧ utf8From n lo hi c = true ∧ (∀ b ∈ c, 0x80 ≤ b) ∧
      ∀ c ∈ cs, utf8 c = true ∧ IsCharacter c)
  := by
  induction bs generalizing n lo hi with
  | nil =>
      constructor
      · intro _ c hc
        cases hc
      · intro hn
        obtain ⟨n, rfl⟩ := Nat.exists_eq_succ_of_ne_zero hn
        cases h
  | cons b bs ih =>
      -- the first character of `bs`, when it has begun before
      have hcontinues : ∀ {n lo hi c}, 0x80 ≤ lo → hi < 0xc0 → utf8From (n + 1) lo hi c = true →
          c.head?.any isContinuation = true := by
        intro n lo hi c hlo hhi hc
        cases c with
        | nil => cases hc
        | cons b c =>
            rw [utf8From, Bool.and_eq_true, Bool.and_eq_true, decide_eq_true_eq,
              decide_eq_true_eq] at hc
            rw [List.head?_cons, Option.any_some, isContinuation, Bool.and_eq_true,
              decide_eq_true_eq, decide_eq_true_eq]
            exact ⟨UInt8.le_trans hlo hc.1.1, UInt8.lt_of_le_of_lt hc.1.2 hhi⟩
      have hhead : ∀ {lo hi}, utf8From 0 lo hi bs = true → ∀ b' bs', bs = b' :: bs' →
          isContinuation b' = false := by
        rintro lo hi h b' bs' rfl
        exact utf8From_zero_head h
      cases n with
      | zero =>
          refine ⟨fun _ => ?_, fun hn => absurd rfl hn⟩
          rcases utf8From_zero_cons b with hascii | hfalse | ⟨hle, n, lo', hi', hlo', hhi', hstep⟩
          · rw [utf8From, if_pos hascii] at h
            rw [characters_cons b (hhead h)]
            intro c hc
            rcases List.mem_cons.mp hc with rfl | hc
            · exact ⟨by rw [utf8, utf8From, if_pos hascii]; rfl, .inl ⟨b, hascii, rfl⟩⟩
            · exact (ih (by decide) (by decide) h).1 rfl c hc
          · rw [hfalse] at h
            cases h
          · rw [hstep] at h
            obtain ⟨c, cs, hcons, hc, hcle, hcs⟩ := (ih hlo' hhi' h).2 (Nat.succ_ne_zero n)
            rw [characters_cons_of_continues hcons (hcontinues hlo' hhi' hc)]
            intro c' hc'
            rcases List.mem_cons.mp hc' with rfl | hc'
            · exact ⟨by rw [utf8, hstep]; exact hc, .inr (List.forall_mem_cons.mpr ⟨hle, hcle⟩)⟩
            · exact hcs c' hc'
      | succ n =>
          refine ⟨fun hn => absurd hn (Nat.succ_ne_zero n), fun _ => ?_⟩
          rw [utf8From, Bool.and_eq_true, Bool.and_eq_true, decide_eq_true_eq,
            decide_eq_true_eq] at h
          obtain ⟨⟨hlob, hbhi⟩, h⟩ := h
          have hle : 0x80 ≤ b := UInt8.le_trans hlo hlob
          cases n with
          | zero =>
              refine ⟨[b], characters bs, characters_cons b (hhead h), ?_, ?_, ?_⟩
              · rw [utf8From, decide_eq_true hlob, decide_eq_true hbhi]
                rfl
              · exact List.forall_mem_singleton.mpr hle
              · exact (ih (by decide) (by decide) h).1 rfl
          | succ n =>
              obtain ⟨c, cs, hcons, hc, hcle, hcs⟩ :=
                (ih (by decide) (by decide) h).2 (Nat.succ_ne_zero n)
              refine ⟨b :: c, cs, characters_cons_of_continues hcons
                (hcontinues (by decide) (by decide) hc), ?_, List.forall_mem_cons.mpr ⟨hle, hcle⟩, hcs⟩
              rw [utf8From, decide_eq_true hlob, decide_eq_true hbhi]
              exact hc

/-- The characters of a text are texts. -/
theorem utf8_characters {bs c : Bytes} (h : utf8 bs = true) (hc : c ∈ characters bs) :
  utf8 c = true ∧ IsCharacter c
  := (utf8From_characters (by decide) (by decide) h).1 rfl c hc

theorem utf8From_append {n : ℕ} (h : utf8From n lo hi bs = true) (h' : utf8 bs' = true) :
  utf8From n lo hi (bs ++ bs') = true
  := by
  induction bs generalizing n lo hi with
  | nil =>
      cases n with
      | zero =>
          cases bs' with
          | nil => rfl
          | cons b bs' =>
              rw [utf8, utf8From] at h'
              rw [List.nil_append, utf8From]
              exact h'
      | succ n => cases h
  | cons b bs ih =>
      cases n with
      | zero =>
          rcases utf8From_zero_cons b with hascii | hfalse | ⟨-, n, lo', hi', -, -, hstep⟩
          · rw [utf8From, if_pos hascii] at h
            rw [List.cons_append, utf8From, if_pos hascii]
            exact ih h
          · rw [hfalse] at h
            cases h
          · rw [hstep] at h
            rw [List.cons_append, hstep]
            exact ih h
      | succ n =>
          rw [utf8From, Bool.and_eq_true] at h
          rw [List.cons_append, utf8From, Bool.and_eq_true]
          exact ⟨h.1, ih h.2⟩

/-- Texts one after the other are a text. -/
theorem utf8_append (h : utf8 bs = true) (h' : utf8 bs' = true) :
  utf8 (bs ++ bs') = true
  := utf8From_append h h'

theorem lt_of_utf8_singleton (h : utf8 [b] = true) :
  b < 0x80
  := by
  rcases utf8From_zero_cons b with hascii | hfalse | ⟨-, n, lo, hi, -, -, hstep⟩
  · exact hascii
  · rw [utf8, hfalse] at h
    cases h
  · rw [utf8, hstep] at h
    cases h

/-! ### Lower case -/

/-- The tables of Unicode: the lower case of a character, and the classes that decide how a sigma
is written. -/
structure UnicodeTables where
  lower : Bytes → Bytes
  cased : Bytes → Bool
  caseIgnorable : Bytes → Bool

/-- The lower case of a character outside of ASCII is a text, of letters as far as it is ASCII. -/
structure UnicodeTables.LowersLetters (tables : UnicodeTables) : Prop where
  text : ∀ c, utf8 c = true → (∀ b ∈ c, 0x80 ≤ b) → utf8 (tables.lower c) = true
  ne_nil : ∀ c, utf8 c = true → (∀ b ∈ c, 0x80 ≤ b) → c ≠ [] → tables.lower c ≠ []
  letters : ∀ c, utf8 c = true → (∀ b ∈ c, 0x80 ≤ b) → ∀ b ∈ tables.lower c, b < 0x80 →
    isAsciiLowercase b = true

/-- The Greek letter `Σ`. -/
def capitalSigma : Bytes := [0xce, 0xa3]

/-- The Greek letter `σ`. -/
def smallSigma : Bytes := [0xcf, 0x83]

/-- The Greek letter `ς`, which ends a word. -/
def finalSigma : Bytes := [0xcf, 0x82]

variable (tables : UnicodeTables)

def caseIgnorableThenCased (cs : List Bytes) : Bool :=
  (cs.find? fun c => !tables.caseIgnorable c).any tables.cased

/-- The lower case of a sigma, given the characters before it, the last one first, and after it. -/
def mapUppercaseSigma (before after : List Bytes) : Bytes :=
  if caseIgnorableThenCased tables before && !caseIgnorableThenCased tables after then finalSigma
  else smallSigma

/-- The lower case of a character. -/
def lowerCharacter : Bytes → Bytes
  | [b] => [toAsciiLowercase b]
  | c => tables.lower c

/-- The lower case of characters, given those before them. -/
def lowercaseFrom (before : List Bytes) : List Bytes → Bytes
  | [] => []
  | c :: cs =>
      (if c = capitalSigma then mapUppercaseSigma tables before cs else lowerCharacter tables c) ++
        lowercaseFrom (c :: before) cs

/-- A text in lower case. -/
def toLowercase (text : Bytes) : Bytes := lowercaseFrom tables [] (characters text)

/-! ### What lower case keeps -/

/-- A text is one in lower case: it has the same characters of ASCII, in lower case, and what is not
ASCII in the one is letters in the other. -/
inductive Lowers : Bytes → Bytes → Prop where
  | nil : Lowers [] []
  | ascii {b : UInt8} {bs bs' : Bytes} (ascii : b < 0x80) (rest : Lowers bs bs') :
      Lowers (b :: bs) (toAsciiLowercase b :: bs')
  | other {c image bs bs' : Bytes} (other : ∀ b ∈ c, 0x80 ≤ b) (ne_nil : c ≠ [])
      (image_ne_nil : image ≠ []) (letters : ∀ b ∈ image, b < 0x80 → isAsciiLowercase b = true)
      (rest : Lowers bs bs') : Lowers (c ++ bs) (image ++ bs')

variable {tables}

/-- What becomes of one character. -/
theorem lowers_character (h : tables.LowersLetters) {c : Bytes} (hc : utf8 c = true)
    (hcharacter : IsCharacter c) (hne : c ≠ []) (before cs : List Bytes) (hbs : Lowers bs bs') :
  Lowers (c ++ bs) ((if c = capitalSigma then mapUppercaseSigma tables before cs
    else lowerCharacter tables c) ++ bs')
  := by
  have hmany : ∀ image : Bytes, (∀ b ∈ c, 0x80 ≤ b) → image ≠ [] →
      (∀ b ∈ image, b < 0x80 → isAsciiLowercase b = true) → Lowers (c ++ bs) (image ++ bs') :=
    fun image hle himage hletters => .other hle hne himage hletters hbs
  split_ifs with hsigma
  · rw [mapUppercaseSigma]
    split_ifs
    · exact hmany finalSigma (by rw [hsigma]; decide +kernel) (by decide)
        (by decide +kernel)
    · exact hmany smallSigma (by rw [hsigma]; decide +kernel) (by decide)
        (by decide +kernel)
  · rcases hcharacter with ⟨b, hb, rfl⟩ | hle
    · exact .ascii hb hbs
    · have hlower : lowerCharacter tables c = tables.lower c := by
        rw [lowerCharacter.eq_def]
        split
        · rename_i b
          exact absurd (lt_of_utf8_singleton hc) (UInt8.not_lt.mpr (hle b List.mem_cons_self))
        · rfl
      rw [hlower]
      exact hmany _ hle (h.ne_nil c hc hle hne) (h.letters c hc hle)

theorem lowers_lowercaseFrom (h : tables.LowersLetters)
    (hcs : ∀ c ∈ cs, utf8 c = true ∧ IsCharacter c ∧ c ≠ []) (before : List Bytes) :
  Lowers cs.flatten (lowercaseFrom tables before cs)
  := by
  induction cs generalizing before with
  | nil => exact .nil
  | cons c cs ih =>
      obtain ⟨hc, hcharacter, hne⟩ := hcs c List.mem_cons_self
      exact lowers_character h hc hcharacter hne before cs
        (ih (fun c hc => hcs c (List.mem_cons_of_mem _ hc)) _)

/-- A text in lower case keeps what is no letter. -/
theorem lowers_toLowercase (h : tables.LowersLetters) (htext : utf8 text = true) :
  Lowers text (toLowercase tables text)
  := by
  have hcs : ∀ c ∈ characters text, utf8 c = true ∧ IsCharacter c ∧ c ≠ [] := by
    intro c hc
    obtain ⟨hutf8, hcharacter⟩ := utf8_characters htext hc
    exact ⟨hutf8, hcharacter, ne_nil_of_mem_characters hc⟩
  have hlowers := lowers_lowercaseFrom h hcs []
  rwa [flatten_characters] at hlowers

theorem isAsciiLowercase_add (h : isAsciiUppercase b = true) :
  isAsciiLowercase (b + 32) = true
  := by
  rw [isAsciiUppercase, Bool.and_eq_true, decide_eq_true_eq, decide_eq_true_eq,
    UInt8.le_iff_toNat_le, UInt8.le_iff_toNat_le] at h
  rw [isAsciiLowercase, Bool.and_eq_true, decide_eq_true_eq, decide_eq_true_eq,
    UInt8.le_iff_toNat_le, UInt8.le_iff_toNat_le, UInt8.toNat_add]
  have h65 : (65 : UInt8).toNat = 65 := rfl
  have h90 : (90 : UInt8).toNat = 90 := rfl
  have h32 : (32 : UInt8).toNat = 32 := rfl
  have h97 : (97 : UInt8).toNat = 97 := rfl
  have h122 : (122 : UInt8).toNat = 122 := rfl
  omega

namespace Lowers

variable {b : UInt8}

/-- A byte that is kept: one of ASCII that is no letter. -/
theorem mem_iff {bs bs' : Bytes} (h : Lowers bs bs') (hb : b < 0x80)
    (hletter : isAsciiAlphabetic b = false) :
  b ∈ bs' ↔ b ∈ bs
  := by
  induction h with
  | nil => rfl
  | @ascii b' bs bs' hascii rest ih =>
      rw [List.mem_cons, List.mem_cons, ih, eq_comm, toAsciiLowercase_eq_iff hletter,
        eq_comm]
  | @other c image bs bs' hother hne himage hletters rest ih =>
      rw [List.mem_append, List.mem_append, ih]
      have hc : b ∉ c := fun hmem => UInt8.not_le.mpr hb (hother b hmem)
      have hnot : b ∉ image := by
        intro hmem
        rw [isAsciiAlphabetic, hletters b hmem hb, Bool.or_true] at hletter
        cases hletter
      simp [hc, hnot]

/-- A text is split at the same bytes. -/
theorem append_cons {bs bs' xs ys : Bytes} (h : Lowers bs bs') (hb : b < 0x80)
    (hletter : isAsciiAlphabetic b = false) (heq : bs = xs ++ b :: ys) :
  ∃ xs' ys', bs' = xs' ++ b :: ys' ∧ Lowers xs xs' ∧ Lowers ys ys'
  := by
  induction h generalizing xs with
  | nil => simp at heq
  | @ascii b' bs bs' hascii rest ih =>
      cases xs with
      | nil =>
          cases heq
          refine ⟨[], bs', ?_, .nil, rest⟩
          rw [(toAsciiLowercase_eq_iff hletter).mpr rfl]
          rfl
      | cons x xs =>
          cases heq
          obtain ⟨xs', ys', rfl, hxs, hys⟩ := ih rfl
          exact ⟨_ :: xs', ys', rfl, .ascii hascii hxs, hys⟩
  | @other c image bs bs' hother hne himage hletters rest ih =>
      have hnot : b ∉ c := fun hmem => UInt8.not_le.mpr hb (hother b hmem)
      rcases List.append_eq_append_iff.mp heq with ⟨zs, rfl, hbs⟩ | ⟨zs, rfl, hbs⟩
      · obtain ⟨xs', ys', rfl, hxs, hys⟩ := ih hbs
        exact ⟨image ++ xs', ys', (List.append_assoc ..).symm,
          .other hother hne himage hletters hxs, hys⟩
      · cases zs with
        | nil =>
            obtain ⟨xs', ys', rfl, hxs, hys⟩ := @ih [] hbs.symm
            have hxs' := Lowers.other hother hne himage hletters hxs
            rw [List.append_nil, List.append_nil] at hxs'
            exact ⟨image ++ xs', ys', (List.append_assoc ..).symm, hxs', hys⟩
        | cons z zs =>
            cases hbs
            exact absurd (List.mem_append_right xs List.mem_cons_self) hnot

theorem eq_nil_iff {bs bs' : Bytes} (h : Lowers bs bs') :
  bs' = [] ↔ bs = []
  := by
  cases h with
  | nil => rfl
  | ascii => simp
  | other hother hne himage => simp [hne, himage]

theorem singleton {bs' : Bytes} (h : Lowers [b] bs') (hb : b < 0x80)
    (hletter : isAsciiAlphabetic b = false) :
  bs' = [b]
  := by
  obtain ⟨xs', ys', rfl, hxs, hys⟩ := h.append_cons hb hletter (List.nil_append [b]).symm
  rw [hxs.eq_nil_iff.mpr rfl, hys.eq_nil_iff.mpr rfl]
  rfl

end Lowers

theorem utf8_mapUppercaseSigma (before after : List Bytes) :
  utf8 (mapUppercaseSigma tables before after) = true
  := by
  rw [mapUppercaseSigma]
  split_ifs
  · rfl
  · rfl

theorem utf8_lowerCharacter (h : tables.LowersLetters) {c : Bytes} (hc : utf8 c = true)
    (hcharacter : IsCharacter c) :
  utf8 (lowerCharacter tables c) = true
  := by
  rw [lowerCharacter.eq_def]
  split
  · rename_i b
    rw [toAsciiLowercase]
    split_ifs with hupper
    · apply utf8_of_ascii
      intro b' hb'
      rw [List.mem_singleton.mp hb']
      apply lt_of_isAsciiAlphanumeric
      rw [isAsciiAlphanumeric, isAsciiAlphabetic, isAsciiLowercase_add hupper, Bool.or_true,
        Bool.true_or]
    · exact hc
  · rename_i hmany
    rcases hcharacter with ⟨b, hb, rfl⟩ | hle
    · exact absurd rfl (hmany b)
    · exact h.text c hc hle

theorem utf8_lowercaseFrom (h : tables.LowersLetters)
    (hcs : ∀ c ∈ cs, utf8 c = true ∧ IsCharacter c) (before : List Bytes) :
  utf8 (lowercaseFrom tables before cs) = true
  := by
  induction cs generalizing before with
  | nil => rfl
  | cons c cs ih =>
      obtain ⟨hc, hcharacter⟩ := hcs c List.mem_cons_self
      apply utf8_append
      · split_ifs
        · exact utf8_mapUppercaseSigma before cs
        · exact utf8_lowerCharacter h hc hcharacter
      · exact ih (fun c hc => hcs c (List.mem_cons_of_mem _ hc)) _

/-- A text in lower case is a text. -/
theorem utf8_toLowercase (h : tables.LowersLetters) (htext : utf8 text = true) :
  utf8 (toLowercase tables text) = true
  := utf8_lowercaseFrom h (fun _ hc => utf8_characters htext hc) []

end Bytes
