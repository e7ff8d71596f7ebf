import Mathlib.Data.List.Nodup
import Shrike.Syntax.AtUriParts

/-!
# The grammar of language tags

The tags that the grammar of RFC 5646 derives, with the primary subtag of two or three lowercase
letters, and that the greedy parser accepts exactly them.
-/

/-!
## Language tags

The tags of BCP 47. The subtags of each kind are taken greedily, in the order of the grammar.
-/

namespace Shrike.Syntax.Language

open Bytes

/-- The grandfathered tags. -/
def grandfathered : List Bytes :=
  ["en-GB-oed", "i-ami", "i-bnn", "i-default", "i-enochian", "i-hak", "i-klingon", "i-lux",
    "i-mingo", "i-navajo", "i-pwn", "i-tao", "i-tay", "i-tsu", "sgn-BE-FR", "sgn-BE-NL",
    "sgn-CH-DE", "art-lojban", "cel-gaulish", "no-bok", "no-nyn", "zh-guoyu", "zh-hakka", "zh-min",
    "zh-min-nan", "zh-xiang"].map ascii

def isAlpha (t : Bytes) : Bool := t.all isAsciiAlphabetic

def isDigit (t : Bytes) : Bool := t.all isAsciiDigit

def isAlnum (t : Bytes) : Bool := t.all isAsciiAlphanumeric

/-- Five to eight alphanumerics, or a digit and three alphanumerics. -/
def isVariant (t : Bytes) : Bool :=
  isAlnum t
    && ((5 ≤ t.length && t.length ≤ 8) || (t.length == 4 && t.head?.any isAsciiDigit))

/-- The subtag that starts a part for private use. -/
def isX (t : Bytes) : Bool := eqIgnoreAsciiCase t (ascii "x")

/-- One or more subtags of one to eight alphanumerics. -/
def isPrivateUse (tags : List Bytes) : Bool :=
  tags ≠ [] && tags.all fun t => 1 ≤ t.length && t.length ≤ 8 && isAlnum t

/-- The subtags without the first one, if it is of a kind. -/
def skipIf (kind : Bytes → Bool) : List Bytes → List Bytes
  | [] => []
  | t :: tags => if kind t then tags else t :: tags

/-- The subtags without up to `n` first ones of a kind. -/
def skipUpTo (kind : Bytes → Bool) : ℕ → List Bytes → List Bytes
  | 0, tags => tags
  | n + 1, t :: tags => if kind t then skipUpTo kind n tags else t :: tags
  | _ + 1, [] => []

/-- The subtags after the variants, where `variants` are those seen so far. A variant that was seen
before is a mistake. -/
def afterVariants (variants : List Bytes) : List Bytes → Option (List Bytes)
  | [] => some []
  | t :: tags =>
      if !isVariant t then some (t :: tags)
      else if variants.any fun seen => eqIgnoreAsciiCase seen t then none
      else afterVariants (variants ++ [t]) tags

/-- A subtag that starts an extension. -/
def isSingleton (t : Bytes) : Bool := t.length == 1 && isAlnum t && !isX t

/-- A subtag of an extension. -/
def isExtensionSubtag (t : Bytes) : Bool := 2 ≤ t.length && t.length ≤ 8 && isAlnum t

/-- The subtags after the extensions, where `singletons` are those seen so far and `subtags` counts
the subtags of the extension that is read, if one is. A singleton that was seen before is a
mistake, and so is an extension without subtags. -/
def afterExtensions (singletons : List Bytes) :
    (subtags : Option ℕ) → List Bytes → Option (List Bytes)
  | subtags, [] => if subtags = some 0 then none else some []
  | subtags, t :: tags =>
      if subtags.isSome && isExtensionSubtag t then
        afterExtensions singletons (subtags.map (· + 1)) tags
      else if subtags = some 0 then none
      else if !isSingleton t then some (t :: tags)
      else
        let s := t.map toAsciiLowercase
        if singletons.contains s then none else afterExtensions (singletons ++ [s]) (some 0) tags

/-- What may come at the end of a tag: nothing, or a part for private use. -/
def isEnd : List Bytes → Bool
  | [] => true
  | t :: tags => isX t && isPrivateUse tags

/-- Whether the subtags after the primary one are those of a tag. -/
def isLangtagRest (tags : List Bytes) : Bool :=
  let tags := skipUpTo (fun t => t.length == 3 && isAlpha t) 3 tags
  let tags := skipIf (fun t => t.length == 4 && isAlpha t) tags
  let tags := skipIf
    (fun t => (t.length == 2 && isAlpha t) || (t.length == 3 && isDigit t)) tags
  match afterVariants [] tags with
  | none => false
  | some tags =>
      match afterExtensions [] none tags with
      | none => false
      | some tags => isEnd tags

/-- Whether a text is a tag or is for private use. -/
def isLangtagOrPrivateUse (raw : Bytes) : Bool :=
  match raw.splitOn (char '-') with
  | [] => false
  | primary :: tags =>
      if isX primary then isPrivateUse tags
      else if !(2 ≤ primary.length && primary.length ≤ 3) || !primary.all isAsciiLowercase then false
      else isLangtagRest tags

/-- Validate a language tag. -/
def validate (raw : Bytes) : Except String Unit :=
  if !grandfathered.contains raw && !isLangtagOrPrivateUse raw then
    .error "not a valid BCP-47 language tag"
  else .ok ()

end Shrike.Syntax.Language

/-! ## The grammar of language tags -/

namespace Shrike.Syntax.Language

open Bytes

/-! ### The grammar -/

/-- A subtag of characters of a kind and of a length within bounds. -/
structure Subtag (kind : UInt8 → Bool) (min max : ℕ) (t : Bytes) : Prop where
  minLength : min ≤ t.length
  maxLength : t.length ≤ max
  chars : ∀ b ∈ t, kind b = true

/-- The text of subtags. -/
def text (subtags : List Bytes) : Bytes := join (char '-') subtags

/-- A part for private use: an `x` and subtags. -/
structure PrivateUse where
  x : UInt8
  subtags : List Bytes

namespace PrivateUse

structure Valid (part : PrivateUse) : Prop where
  x : toAsciiLowercase part.x = char 'x'
  nonempty : part.subtags ≠ []
  subtags : ∀ t ∈ part.subtags, Subtag isAsciiAlphanumeric 1 8 t

def all (part : PrivateUse) : List Bytes := [part.x] :: part.subtags

end PrivateUse

/-- An extension: a singleton and subtags. -/
structure Extension where
  singleton : UInt8
  subtags : List Bytes

namespace Extension

structure Valid (extension : Extension) : Prop where
  singleton : isAsciiAlphanumeric extension.singleton = true
  notX : toAsciiLowercase extension.singleton ≠ char 'x'
  nonempty : extension.subtags ≠ []
  subtags : ∀ t ∈ extension.subtags, Subtag isAsciiAlphanumeric 2 8 t

def all (extension : Extension) : List Bytes := [extension.singleton] :: extension.subtags

end Extension

/-- The parts of a tag. -/
structure Langtag where
  primary : Bytes
  extlangs : List Bytes
  script : Option Bytes
  region : Option Bytes
  variants : List Bytes
  extensions : List Extension
  privateUse : Option PrivateUse

namespace Langtag

/-- The parts are what the grammar derives, and no variant and no singleton is repeated in another
case. -/
structure Valid (tag : Langtag) : Prop where
  primary : Subtag isAsciiLowercase 2 3 tag.primary
  extlangsLength : tag.extlangs.length ≤ 3
  extlangs : ∀ t ∈ tag.extlangs, Subtag isAsciiAlphabetic 3 3 t
  script : ∀ t ∈ tag.script, Subtag isAsciiAlphabetic 4 4 t
  region : ∀ t ∈ tag.region, Subtag isAsciiAlphabetic 2 2 t ∨ Subtag isAsciiDigit 3 3 t
  variants : ∀ t ∈ tag.variants, Subtag isAsciiAlphanumeric 5 8 t
    ∨ Subtag isAsciiAlphanumeric 4 4 t ∧ ∃ b ∈ t.head?, isAsciiDigit b = true
  variantsDistinct : (tag.variants.map (List.map toAsciiLowercase)).Nodup
  extensions : ∀ extension ∈ tag.extensions, extension.Valid
  singletonsDistinct :
    (tag.extensions.map fun extension => toAsciiLowercase extension.singleton).Nodup
  privateUse : ∀ part ∈ tag.privateUse, part.Valid

/-- The subtags after the extensions. -/
def ending (tag : Langtag) : List Bytes := tag.privateUse.elim [] PrivateUse.all

/-- The subtags after the variants. -/
def afterVariants (tag : Langtag) : List Bytes := tag.extensions.flatMap Extension.all ++ tag.ending

/-- The subtags after the primary one. -/
def rest (tag : Langtag) : List Bytes :=
  tag.extlangs ++ (tag.script.toList ++ (tag.region.toList ++ (tag.variants ++ tag.afterVariants)))

/-- All subtags. -/
def all (tag : Langtag) : List Bytes := tag.primary :: tag.rest

end Langtag

/-! ### Kinds of subtags -/

variable {rest tags subtags singletons : List Bytes} {t : Bytes}

variable {kind : Bytes → Bool} {n max min : ℕ}

theorem subtag_iff {kind : UInt8 → Bool} :
  Subtag kind min max t ↔ (min ≤ t.length ∧ t.length ≤ max) ∧ t.all kind = true
  := by
  rw [List.all_eq_true]
  exact ⟨fun h => ⟨⟨h.minLength, h.maxLength⟩, h.chars⟩, fun h => ⟨h.1.1, h.1.2, h.2⟩⟩

theorem subtag_of_length {kind : UInt8 → Bool} :
  (t.length == n && t.all kind) = true ↔ Subtag kind n n t
  := by
  rw [subtag_iff, Bool.and_eq_true, beq_iff_eq, Nat.le_antisymm_iff, and_comm (a := t.length ≤ n)]

/-- The mark of private use is an x in either case. -/
theorem isX_iff :
  isX t = true ↔ ∃ b, t = [b] ∧ toAsciiLowercase b = char 'x'
  := by
  rw [isX, eqIgnoreAsciiCase, beq_iff_eq]
  have hx : (ascii "x").map toAsciiLowercase = [char 'x'] := by decide
  rw [hx, List.map_eq_singleton_iff]

/-- A singleton is a letter or a digit, but not the mark of private use. -/
theorem isSingleton_iff :
  isSingleton t = true ↔ ∃ b, t = [b] ∧ isAsciiAlphanumeric b = true
    ∧ toAsciiLowercase b ≠ char 'x'
  := by
  rw [isSingleton, Bool.and_eq_true, Bool.and_eq_true, beq_iff_eq, List.length_eq_one_iff]
  constructor
  · rintro ⟨⟨⟨b, rfl⟩, halnum⟩, hx⟩
    refine ⟨b, rfl, List.all_eq_true.mp halnum b List.mem_cons_self, ?_⟩
    intro heq
    rw [isX_iff.mpr ⟨b, rfl, heq⟩] at hx
    cases hx
  · rintro ⟨b, rfl, halnum, hx⟩
    refine ⟨⟨⟨b, rfl⟩, ?_⟩, ?_⟩
    · rw [isAlnum, List.all_cons, halnum]
      rfl
    · rw [Bool.not_eq_true', ← Bool.not_eq_true]
      intro h
      obtain ⟨b', heq, hx'⟩ := isX_iff.mp h
      cases heq
      exact hx hx'

theorem isExtensionSubtag_iff :
  isExtensionSubtag t = true ↔ Subtag isAsciiAlphanumeric 2 8 t
  := by
  rw [isExtensionSubtag, subtag_iff, Bool.and_eq_true, Bool.and_eq_true, decide_eq_true_eq,
    decide_eq_true_eq]
  rfl

/-- A variant has five to eight characters, or four if it starts with a digit. -/
theorem isVariant_iff :
  isVariant t = true ↔ Subtag isAsciiAlphanumeric 5 8 t
    ∨ Subtag isAsciiAlphanumeric 4 4 t ∧ ∃ b ∈ t.head?, isAsciiDigit b = true
  := by
  have hany : t.head?.any isAsciiDigit = true ↔ ∃ b ∈ t.head?, isAsciiDigit b = true := by
    cases t.head? <;> simp
  rw [isVariant, subtag_iff, subtag_iff, ← hany]
  simp only [Bool.and_eq_true, Bool.or_eq_true, decide_eq_true_eq, beq_iff_eq, isAlnum]
  constructor
  · rintro ⟨halnum, h | h⟩
    · exact .inl ⟨h, halnum⟩
    · exact .inr ⟨⟨⟨by omega, by omega⟩, halnum⟩, h.2⟩
  · rintro (h | h)
    · exact ⟨h.2, .inl h.1⟩
    · exact ⟨h.1.2, .inr ⟨by omega, h.2⟩⟩

theorem isPrivateUse_iff :
  isPrivateUse tags = true ↔ tags ≠ [] ∧ ∀ t ∈ tags, Subtag isAsciiAlphanumeric 1 8 t
  := by
  rw [isPrivateUse, Bool.and_eq_true, decide_eq_true_eq, List.all_eq_true]
  apply and_congr_right
  intro _
  apply forall₂_congr
  intro t _
  rw [subtag_iff, Bool.and_eq_true, Bool.and_eq_true, decide_eq_true_eq, decide_eq_true_eq]
  rfl

/-! ### Taking subtags greedily -/

/-- The first of some subtags, if there is one, is not of a kind. -/
def StartsNot (kind : Bytes → Bool) (tags : List Bytes) : Prop := ∀ t ∈ tags.head?, kind t = false

theorem StartsNot.append {tags tags' : List Bytes}
    (h : ∀ t ∈ tags, kind t = false) (h' : StartsNot kind tags') :
  StartsNot kind (tags ++ tags')
  := by
  cases tags with
  | nil => exact h'
  | cons t tags =>
      rintro t' ⟨⟩
      exact h t List.mem_cons_self

/-- A subtag of the kind is skipped, if one stands there. -/
theorem skipIf_append {first : Option Bytes}
    (h : ∀ t ∈ first, kind t = true) (h' : StartsNot kind tags) :
  skipIf kind (first.toList ++ tags) = tags
  := by
  cases first with
  | none =>
      cases tags with
      | nil => rfl
      | cons t tags => exact if_neg (by rw [h' t rfl]; nofun)
  | some t => exact if_pos (h t rfl)

/-- At most one subtag is skipped, and it is of the kind. -/
theorem skipIf_parses (kind : Bytes → Bool) (tags : List Bytes) :
  ∃ first : Option Bytes, tags = first.toList ++ skipIf kind tags ∧ ∀ t ∈ first, kind t = true
  := by
  cases tags with
  | nil => exact ⟨none, rfl, nofun⟩
  | cons t tags =>
      rw [skipIf]
      split_ifs with h
      · refine ⟨some t, rfl, ?_⟩
        rintro t' ⟨⟩
        exact h
      · exact ⟨none, rfl, nofun⟩

/-- So many subtags of the kind are skipped, if they stand there. -/
theorem skipUpTo_append {first tags : List Bytes}
    (hlen : first.length ≤ n) (h : ∀ t ∈ first, kind t = true) (h' : StartsNot kind tags) :
  skipUpTo kind n (first ++ tags) = tags
  := by
  induction first generalizing n with
  | nil =>
      cases n with
      | zero => rfl
      | succ n =>
          cases tags with
          | nil => rfl
          | cons t tags => exact if_neg (by rw [h' t rfl]; nofun)
  | cons t first ih =>
      cases n with
      | zero => cases hlen
      | succ n =>
          rw [List.cons_append, skipUpTo, if_pos (h t List.mem_cons_self)]
          exact ih (Nat.le_of_succ_le_succ hlen) fun t' ht' => h t' (List.mem_cons_of_mem t ht')

/-- At most so many subtags are skipped, and they are of the kind. -/
theorem skipUpTo_parses (kind : Bytes → Bool) (n : ℕ) (tags : List Bytes) :
  ∃ first, tags = first ++ skipUpTo kind n tags ∧ first.length ≤ n ∧ ∀ t ∈ first, kind t = true
  := by
  induction n generalizing tags with
  | zero => exact ⟨[], rfl, le_rfl, nofun⟩
  | succ n ih =>
      cases tags with
      | nil => exact ⟨[], rfl, Nat.zero_le _, nofun⟩
      | cons t tags =>
          rw [skipUpTo]
          split_ifs with h
          · obtain ⟨first, heq, hlen, hfirst⟩ := ih tags
            refine ⟨t :: first, ?_, Nat.succ_le_succ hlen, List.forall_mem_cons.mpr ⟨h, hfirst⟩⟩
            rw [List.cons_append, ← heq]
          · exact ⟨[], rfl, Nat.zero_le _, nofun⟩

/-! ### Variants -/

theorem eqIgnoreAsciiCase_iff {t t' : Bytes} :
  eqIgnoreAsciiCase t t' = true ↔ t.map toAsciiLowercase = t'.map toAsciiLowercase
  := by
  rw [eqIgnoreAsciiCase, beq_iff_eq]

/-- Distinct variants are read. -/
theorem afterVariants_append {variants seen tags : List Bytes}
    (h : ∀ t ∈ variants, isVariant t = true)
    (hdistinct : ((seen ++ variants).map (List.map toAsciiLowercase)).Nodup)
    (h' : StartsNot isVariant tags) :
  afterVariants seen (variants ++ tags) = some tags
  := by
  induction variants generalizing seen with
  | nil =>
      cases tags with
      | nil => rfl
      | cons t tags =>
          rw [List.nil_append, afterVariants, h' t rfl]
          rfl
  | cons t variants ih =>
      have hnew : (seen.any fun seen => eqIgnoreAsciiCase seen t) = false := by
        rw [List.any_eq_false]
        intro t' ht' heq
        rw [List.map_append, List.nodup_append] at hdistinct
        exact hdistinct.2.2 _ (List.mem_map_of_mem ht') _
          (List.mem_map_of_mem List.mem_cons_self) (eqIgnoreAsciiCase_iff.mp heq)
      rw [List.cons_append, afterVariants, h t List.mem_cons_self, hnew]
      apply ih
      · intro t' ht'
        exact h t' (List.mem_cons_of_mem t ht')
      · rwa [List.append_assoc, List.singleton_append]

/-- What is read as variants are distinct variants. -/
theorem afterVariants_parses {seen tags rest : List Bytes}
    (hseen : (seen.map (List.map toAsciiLowercase)).Nodup)
    (h : afterVariants seen tags = some rest) :
  ∃ variants, tags = variants ++ rest ∧ (∀ t ∈ variants, isVariant t = true)
    ∧ ((seen ++ variants).map (List.map toAsciiLowercase)).Nodup
  := by
  induction tags generalizing seen with
  | nil =>
      cases h
      exact ⟨[], rfl, nofun, by rwa [List.append_nil]⟩
  | cons t tags ih =>
      rw [afterVariants] at h
      split_ifs at h with hvariant hnew
      · cases h
        exact ⟨[], rfl, nofun, by rwa [List.append_nil]⟩
      · rw [Bool.not_eq_true, Bool.not_eq_false'] at hvariant
        obtain ⟨variants, rfl, hvariants, hdistinct⟩ := ih (by
          rw [List.map_append, List.nodup_append]
          refine ⟨hseen, List.pairwise_singleton _ _, ?_⟩
          rintro _ hmem _ hlower rfl
          obtain ⟨t', ht', heq⟩ := List.mem_map.mp hmem
          apply hnew
          rw [List.any_eq_true]
          rw [List.map_singleton, List.mem_singleton] at hlower
          exact ⟨t', ht', eqIgnoreAsciiCase_iff.mpr (heq.trans hlower)⟩) h
        rw [List.append_assoc, List.singleton_append] at hdistinct
        exact ⟨t :: variants, rfl, List.forall_mem_cons.mpr ⟨hvariant, hvariants⟩, hdistinct⟩

/-! ### Extensions -/

/-- The lowercase singleton of an extension, as a subtag. -/
def lowerSingleton (extension : Extension) : Bytes := [toAsciiLowercase extension.singleton]

/-- The subtags of an extension are counted. -/
theorem afterExtensions_subtags (h : ∀ t ∈ subtags, isExtensionSubtag t = true) (n : ℕ) :
  afterExtensions singletons (some n) (subtags ++ tags)
    = afterExtensions singletons (some (n + subtags.length)) tags
  := by
  induction subtags generalizing n with
  | nil => rfl
  | cons t subtags ih =>
      rw [List.cons_append, afterExtensions, h t List.mem_cons_self]
      show afterExtensions singletons (some (n + 1)) (subtags ++ tags) = _
      rw [ih fun t' ht' => h t' (List.mem_cons_of_mem t ht'), List.length_cons, Nat.add_assoc,
        Nat.add_comm 1]

theorem isExtensionSubtag_singleton (b : UInt8) :
  isExtensionSubtag [b] = false
  := by
  rw [isExtensionSubtag, List.length_singleton]
  rfl

/-- Extensions with distinct singletons are read. -/
theorem afterExtensions_append {extensions : List Extension}
    {subtags : Option ℕ} (hsubtags : subtags ≠ some 0)
    (h : ∀ extension ∈ extensions, extension.Valid)
    (hdistinct : (singletons ++ extensions.map lowerSingleton).Nodup)
    (hsubtag : StartsNot isExtensionSubtag tags) (hsingleton : StartsNot isSingleton tags) :
  afterExtensions singletons subtags (extensions.flatMap Extension.all ++ tags) = some tags
  := by
  induction extensions generalizing singletons subtags with
  | nil =>
      cases tags with
      | nil => exact if_neg hsubtags
      | cons t tags =>
          rw [List.flatMap_nil, List.nil_append, afterExtensions, hsubtag t rfl, Bool.and_false,
            if_neg Bool.false_ne_true, if_neg hsubtags, hsingleton t rfl]
          rfl
  | cons extension extensions ih =>
      have hvalid := h extension List.mem_cons_self
      have hstart : isSingleton [extension.singleton] = true :=
        isSingleton_iff.mpr ⟨_, rfl, hvalid.singleton, hvalid.notX⟩
      have hnew : ¬singletons.contains (lowerSingleton extension) = true := by
        intro hmem
        rw [List.nodup_append] at hdistinct
        exact hdistinct.2.2 _ (List.contains_iff_mem.mp hmem) _ List.mem_cons_self rfl
      rw [List.flatMap_cons, Extension.all, List.append_assoc, List.cons_append, afterExtensions,
        isExtensionSubtag_singleton, Bool.and_false, if_neg Bool.false_ne_true, if_neg hsubtags,
        hstart, Bool.not_true, if_neg Bool.false_ne_true]
      show (if singletons.contains (lowerSingleton extension) = true then none else _) = _
      rw [if_neg hnew]
      show afterExtensions (singletons ++ [lowerSingleton extension]) (some 0) _ = _
      rw [afterExtensions_subtags fun t ht => isExtensionSubtag_iff.mpr (hvalid.subtags t ht)]
      apply ih
      · have hpos := List.length_pos_iff.mpr hvalid.nonempty
        rw [Nat.zero_add]
        intro heq
        rw [Option.some.inj heq] at hpos
        exact absurd hpos (lt_irrefl 0)
      · exact fun extension' hmem => h extension' (List.mem_cons_of_mem _ hmem)
      · rwa [List.append_assoc, List.singleton_append]

/-- What is read as extensions are extensions with distinct singletons. -/
theorem afterExtensions_parses {subtags : Option ℕ}
    (hsingletons : singletons.Nodup) (h : afterExtensions singletons subtags tags = some rest) :
  ∃ (more : List Bytes) (extensions : List Extension),
    tags = more ++ (extensions.flatMap Extension.all ++ rest)
      ∧ (subtags = none → more = []) ∧ (subtags = some 0 → more ≠ [])
      ∧ (∀ t ∈ more, Subtag isAsciiAlphanumeric 2 8 t)
      ∧ (∀ extension ∈ extensions, extension.Valid)
      ∧ (singletons ++ extensions.map lowerSingleton).Nodup
  := by
  induction tags generalizing singletons subtags with
  | nil =>
      rw [afterExtensions] at h
      split_ifs at h with hsubtags
      cases h
      exact ⟨[], [], rfl, fun _ => rfl, fun hzero => absurd hzero hsubtags, nofun, nofun,
        by rwa [List.map_nil, List.append_nil]⟩
  | cons t tags ih =>
      rw [afterExtensions] at h
      split_ifs at h with hsubtag hsubtags hsingleton
      · rw [Bool.and_eq_true] at hsubtag
        obtain ⟨more, extensions, rfl, -, -, hmore, hvalid, hdistinct⟩ := ih hsingletons h
        refine ⟨t :: more, extensions, rfl, ?_, nofun, ?_, hvalid, hdistinct⟩
        · rintro rfl
          cases hsubtag.1
        · exact List.forall_mem_cons.mpr ⟨isExtensionSubtag_iff.mp hsubtag.2, hmore⟩
      · cases h
        exact ⟨[], [], rfl, fun _ => rfl, fun hzero => absurd hzero hsubtags, nofun, nofun,
          by rwa [List.map_nil, List.append_nil]⟩
      · rw [Bool.not_eq_true, Bool.not_eq_false'] at hsingleton
        obtain ⟨b, rfl, halnum, hx⟩ := isSingleton_iff.mp hsingleton
        change (if singletons.contains [toAsciiLowercase b] = true then none else
          afterExtensions (singletons ++ [[toAsciiLowercase b]]) (some 0) tags) = some rest at h
        split_ifs at h with hnew
        have hnodup : (singletons ++ [[toAsciiLowercase b]]).Nodup := by
          rw [List.nodup_append]
          refine ⟨hsingletons, List.pairwise_singleton _ _, ?_⟩
          rintro _ hmem _ hlower rfl
          rw [List.mem_singleton.mp hlower] at hmem
          exact hnew (List.contains_iff_mem.mpr hmem)
        obtain ⟨more, extensions, rfl, -, hnonempty, hmore, hvalid, hdistinct⟩ := ih hnodup h
        refine ⟨[], ⟨b, more⟩ :: extensions, ?_, fun _ => rfl,
          fun hzero => absurd hzero hsubtags, nofun, ?_, ?_⟩
        · rw [List.flatMap_cons, Extension.all, List.nil_append, List.append_assoc]
          rfl
        · exact List.forall_mem_cons.mpr ⟨⟨halnum, hx, hnonempty rfl, hmore⟩, hvalid⟩
        · rwa [List.append_assoc, List.singleton_append] at hdistinct

/-! ### The kinds do not overlap -/

def isExtlang (t : Bytes) : Bool := t.length == 3 && isAlpha t

def isScript (t : Bytes) : Bool := t.length == 4 && isAlpha t

def isRegion (t : Bytes) : Bool := (t.length == 2 && isAlpha t) || (t.length == 3 && isDigit t)

theorem isRegion_iff :
  isRegion t = true ↔ Subtag isAsciiAlphabetic 2 2 t ∨ Subtag isAsciiDigit 3 3 t
  := by
  rw [← subtag_of_length, ← subtag_of_length, ← Bool.or_eq_true]
  rfl

theorem not_isAsciiAlphabetic_of_isAsciiDigit {b : UInt8} (h : isAsciiDigit b = true) :
  isAsciiAlphabetic b ≠ true
  := by
  intro halpha
  simp only [isAsciiDigit, Bool.and_eq_true, decide_eq_true_eq, UInt8.le_iff_toNat_le,
    UInt8.reduceToNat] at h
  simp only [isAsciiAlphabetic, isAsciiUppercase, isAsciiLowercase, Bool.or_eq_true,
    Bool.and_eq_true, decide_eq_true_eq, UInt8.le_iff_toNat_le, UInt8.reduceToNat] at halpha
  omega

/-- The shapes of the subtags that may come after the primary one. -/
theorem length_of_isExtlang (h : isExtlang t = true) :
  t.length = 3
  := by
  rw [isExtlang, Bool.and_eq_true, beq_iff_eq] at h
  exact h.1

theorem length_of_isScript (h : isScript t = true) :
  t.length = 4
  := by
  rw [isScript, Bool.and_eq_true, beq_iff_eq] at h
  exact h.1

theorem length_of_isRegion (h : isRegion t = true) :
  t.length = 2 ∨ t.length = 3
  := by
  rcases isRegion_iff.mp h with h | h
  · exact .inl (Nat.le_antisymm h.maxLength h.minLength)
  · exact .inr (Nat.le_antisymm h.maxLength h.minLength)

theorem length_of_isVariant (h : isVariant t = true) :
  4 ≤ t.length
  := by
  rcases isVariant_iff.mp h with h | h
  · exact Nat.le_trans (by decide) h.minLength
  · exact h.1.minLength

theorem isExtlang_of_isRegion (h : isRegion t = true) :
  isExtlang t = false
  := by
  rw [← Bool.not_eq_true]
  intro hextlang
  have hlen := length_of_isExtlang hextlang
  rcases isRegion_iff.mp h with h | h
  · have hmax := h.maxLength
    omega
  · cases t with
    | nil => cases hlen
    | cons b t =>
        have halpha := (subtag_of_length.mp hextlang).chars b List.mem_cons_self
        exact not_isAsciiAlphabetic_of_isAsciiDigit (h.chars b List.mem_cons_self) halpha

theorem isScript_of_isVariant (h : isVariant t = true) :
  isScript t = false
  := by
  rw [← Bool.not_eq_true]
  intro hscript
  have hlen := length_of_isScript hscript
  rcases isVariant_iff.mp h with h | ⟨-, b, hb, hdigit⟩
  · have hmin := h.minLength
    omega
  · have halpha := (subtag_of_length.mp hscript).chars b (List.mem_of_mem_head? hb)
    exact not_isAsciiAlphabetic_of_isAsciiDigit hdigit halpha

/-! ### Tags -/

theorem isEnd_iff :
  isEnd tags = true ↔ ∃ part : Option PrivateUse, (∀ p ∈ part, p.Valid)
    ∧ tags = part.elim [] PrivateUse.all
  := by
  cases tags with
  | nil =>
      refine ⟨fun _ => ⟨none, nofun, rfl⟩, fun _ => rfl⟩
  | cons t tags =>
      rw [isEnd, Bool.and_eq_true, isPrivateUse_iff]
      constructor
      · rintro ⟨hx, hne, htags⟩
        obtain ⟨b, rfl, hb⟩ := isX_iff.mp hx
        refine ⟨some ⟨b, tags⟩, ?_, rfl⟩
        rintro p ⟨⟩
        exact ⟨hb, hne, htags⟩
      · rintro ⟨part, hpart, heq⟩
        cases part with
        | none => cases heq
        | some part =>
            cases heq
            have hvalid := hpart part rfl
            exact ⟨isX_iff.mpr ⟨_, rfl, hvalid.x⟩, hvalid.nonempty, hvalid.subtags⟩

namespace Langtag.Valid

variable {tag : Langtag} (h : tag.Valid)

include h

/-- A tag ends with a single character at most, before private use. -/
theorem startsNot_ending {kind : Bytes → Bool} (hkind : ∀ b, toAsciiLowercase b = char 'x' →
    kind [b] = false) :
  StartsNot kind tag.ending
  := by
  rw [Langtag.ending]
  cases hpart : tag.privateUse with
  | none => nofun
  | some part =>
      rintro t ⟨⟩
      exact hkind _ (h.privateUse part hpart).x

theorem startsNot_afterVariants {kind : Bytes → Bool} (hkind : ∀ b, kind [b] = false) :
  StartsNot kind tag.afterVariants
  := by
  rw [Langtag.afterVariants]
  cases tag.extensions with
  | nil => exact h.startsNot_ending fun b _ => hkind b
  | cons extension extensions =>
      rintro t ⟨⟩
      exact hkind _

theorem afterExtensions_eq :
  Language.afterExtensions [] none tag.afterVariants = some tag.ending
  := by
  apply @afterExtensions_append tag.ending [] tag.extensions none nofun h.extensions
  · have hmap : tag.extensions.map lowerSingleton
        = (tag.extensions.map fun extension => toAsciiLowercase extension.singleton).map
          fun b => [b] := by
      rw [List.map_map]
      rfl
    rw [List.nil_append, hmap]
    apply List.Nodup.map _ h.singletonsDistinct
    intro b b' heq
    exact (List.cons.inj heq).1
  · exact h.startsNot_ending fun b _ => isExtensionSubtag_singleton b
  · apply h.startsNot_ending
    intro b hb
    rw [← Bool.not_eq_true]
    intro hsingleton
    obtain ⟨b', heq, -, hx⟩ := isSingleton_iff.mp hsingleton
    cases heq
    exact hx hb

/-- The parser takes each part of a tag as what it is. -/
theorem isLangtagRest_eq :
  isLangtagRest tag.rest = true
  := by
  have hnot : ∀ {kind : Bytes → Bool} {n : ℕ} {b : UInt8},
      (kind [b] = true → 2 ≤ [b].length) → kind [b] = false := by
    intro kind n b hlen
    rw [← Bool.not_eq_true]
    intro hkind
    exact absurd (hlen hkind) (by simp)
  have hvariants : ∀ t ∈ tag.variants, isVariant t = true := fun t ht =>
    isVariant_iff.mpr (h.variants t ht)
  have hregion : ∀ t ∈ tag.region, isRegion t = true := fun t ht =>
    isRegion_iff.mpr (h.region t ht)
  have hscript : ∀ t ∈ tag.script, isScript t = true := fun t ht =>
    subtag_of_length.mpr (h.script t ht)
  have hextlangs : ∀ t ∈ tag.extlangs, isExtlang t = true := fun t ht =>
    subtag_of_length.mpr (h.extlangs t ht)
  have hfalse : ∀ {kind : Bytes → Bool} {t : Bytes}, ¬kind t = true → kind t = false := fun h' =>
    Bool.not_eq_true _ ▸ h'
  have hskipExtlangs : skipUpTo isExtlang 3 tag.rest
      = tag.script.toList ++ (tag.region.toList ++ (tag.variants ++ tag.afterVariants)) := by
    apply skipUpTo_append h.extlangsLength hextlangs
    apply StartsNot.append
    · intro t ht
      apply hfalse
      intro hextlang
      have hlen := length_of_isScript (hscript t (Option.mem_toList.mp ht))
      have hlen' := length_of_isExtlang hextlang
      omega
    apply StartsNot.append
    · intro t ht
      exact isExtlang_of_isRegion (hregion t (Option.mem_toList.mp ht))
    apply StartsNot.append
    · intro t ht
      apply hfalse
      intro hextlang
      have hlen := length_of_isVariant (hvariants t ht)
      have hlen' := length_of_isExtlang hextlang
      omega
    · apply h.startsNot_afterVariants
      intro b
      rfl
  have hskipScript : skipIf isScript
      (tag.script.toList ++ (tag.region.toList ++ (tag.variants ++ tag.afterVariants)))
        = tag.region.toList ++ (tag.variants ++ tag.afterVariants) := by
    apply skipIf_append hscript
    apply StartsNot.append
    · intro t ht
      apply hfalse
      intro hisScript
      have hlen := length_of_isScript hisScript
      have hlen' := length_of_isRegion (hregion t (Option.mem_toList.mp ht))
      omega
    apply StartsNot.append
    · intro t ht
      exact isScript_of_isVariant (hvariants t ht)
    · apply h.startsNot_afterVariants
      intro b
      rfl
  have hskipRegion : skipIf isRegion (tag.region.toList ++ (tag.variants ++ tag.afterVariants))
      = tag.variants ++ tag.afterVariants := by
    apply skipIf_append hregion
    apply StartsNot.append
    · intro t ht
      apply hfalse
      intro hisRegion
      have hlen := length_of_isVariant (hvariants t ht)
      have hlen' := length_of_isRegion hisRegion
      omega
    · apply h.startsNot_afterVariants
      intro b
      rfl
  have hafterVariants : Language.afterVariants [] (tag.variants ++ tag.afterVariants)
      = some tag.afterVariants := by
    apply @afterVariants_append tag.variants [] tag.afterVariants hvariants h.variantsDistinct
    apply h.startsNot_afterVariants
    intro b
    apply hfalse
    intro hvariant
    exact absurd (length_of_isVariant hvariant) (by simp)
  show (match Language.afterVariants [] (skipIf isRegion (skipIf isScript
    (skipUpTo isExtlang 3 tag.rest))) with | none => false | some tags => _) = true
  rw [hskipExtlangs, hskipScript, hskipRegion, hafterVariants]
  show (match Language.afterExtensions [] none tag.afterVariants with
    | none => false | some tags => isEnd tags) = true
  rw [h.afterExtensions_eq]
  exact isEnd_iff.mpr ⟨tag.privateUse, h.privateUse, rfl⟩

end Langtag.Valid

/-- What the parser accepts behind a primary subtag is the rest of a tag. -/
theorem isLangtagRest_parses {primary : Bytes} (hprimary : Subtag isAsciiLowercase 2 3 primary)
    (h : isLangtagRest tags = true) :
  ∃ tag : Langtag, tag.Valid ∧ primary :: tags = tag.all
  := by
  obtain ⟨extlangs, htags, hlen, hextlangs⟩ := skipUpTo_parses isExtlang 3 tags
  obtain ⟨script, htags', hscript⟩ := skipIf_parses isScript (skipUpTo isExtlang 3 tags)
  obtain ⟨region, htags'', hregion⟩ :=
    skipIf_parses isRegion (skipIf isScript (skipUpTo isExtlang 3 tags))
  change (match Language.afterVariants [] (skipIf isRegion (skipIf isScript
    (skipUpTo isExtlang 3 tags))) with | none => false | some tags => _) = true at h
  cases hvariants : Language.afterVariants [] (skipIf isRegion (skipIf isScript
      (skipUpTo isExtlang 3 tags))) with
  | none =>
      rw [hvariants] at h
      cases h
  | some afterVariants =>
      rw [hvariants] at h
      change (match Language.afterExtensions [] none afterVariants with
        | none => false | some tags => isEnd tags) = true at h
      obtain ⟨variants, hsplit, hvariant, hdistinct⟩ :=
        @afterVariants_parses [] _ _ List.nodup_nil hvariants
      cases hextensions : Language.afterExtensions [] none afterVariants with
      | none =>
          rw [hextensions] at h
          cases h
      | some ending =>
          rw [hextensions] at h
          obtain ⟨more, extensions, hsplit', hnone, -, -, hvalid, hsingletons⟩ :=
            afterExtensions_parses List.nodup_nil hextensions
          obtain ⟨part, hpart, hending⟩ := isEnd_iff.mp h
          refine ⟨⟨primary, extlangs, script, region, variants, extensions, part⟩,
            ⟨hprimary, hlen, fun t ht => subtag_of_length.mp (hextlangs t ht),
              fun t ht => subtag_of_length.mp (hscript t ht),
              fun t ht => isRegion_iff.mp (hregion t ht),
              fun t ht => isVariant_iff.mp (hvariant t ht), hdistinct, hvalid, ?_, hpart⟩, ?_⟩
          · have hmap : extensions.map lowerSingleton
                = (extensions.map fun extension => toAsciiLowercase extension.singleton).map
                  fun b => [b] := by
              rw [List.map_map]
              rfl
            rw [List.nil_append, hmap] at hsingletons
            exact List.Nodup.of_map _ hsingletons
          · rw [hnone rfl, List.nil_append] at hsplit'
            show primary :: tags = primary :: (extlangs ++ (script.toList ++ (region.toList
              ++ (variants ++ (extensions.flatMap Extension.all ++ part.elim [] PrivateUse.all)))))
            rw [← hending, ← hsplit', ← hsplit, ← htags'', ← htags', ← htags]

/-! ### Texts -/

theorem Subtag.not_mem_hyphen {kind : UInt8 → Bool}
    (h : Subtag kind min max t) (hkind : kind (char '-') = false) :
  char '-' ∉ t
  := by
  intro hmem
  rw [h.chars _ hmem] at hkind
  cases hkind

theorem not_mem_hyphen_singleton {b : UInt8} (h : isAsciiAlphanumeric (toAsciiLowercase b) = true) :
  char '-' ∉ [b]
  := by
  intro hmem
  rw [← List.mem_singleton.mp hmem] at h
  exact absurd h (by decide)

theorem PrivateUse.Valid.not_mem_hyphen {part : PrivateUse} (h : part.Valid) :
  ∀ t ∈ part.all, char '-' ∉ t
  := by
  rw [PrivateUse.all, List.forall_mem_cons]
  constructor
  · apply not_mem_hyphen_singleton
    rw [h.x]
    rfl
  · intro t ht
    exact (h.subtags t ht).not_mem_hyphen rfl

theorem Extension.Valid.not_mem_hyphen {extension : Extension} (h : extension.Valid) :
  ∀ t ∈ extension.all, char '-' ∉ t
  := by
  rw [Extension.all, List.forall_mem_cons]
  constructor
  · apply not_mem_hyphen_singleton
    rw [isAsciiAlphanumeric_toAsciiLowercase]
    exact h.singleton
  · intro t ht
    exact (h.subtags t ht).not_mem_hyphen rfl

theorem Langtag.Valid.not_mem_hyphen {tag : Langtag} (h : tag.Valid) :
  ∀ t ∈ tag.all, char '-' ∉ t
  := by
  simp only [Langtag.all, Langtag.rest, Langtag.afterVariants, List.forall_mem_cons,
    List.forall_mem_append]
  refine ⟨h.primary.not_mem_hyphen rfl, ?_, ?_, ?_, ?_, ?_, ?_⟩
  · intro t ht
    exact (h.extlangs t ht).not_mem_hyphen rfl
  · intro t ht
    exact (h.script t (Option.mem_toList.mp ht)).not_mem_hyphen rfl
  · intro t ht
    rcases h.region t (Option.mem_toList.mp ht) with h | h
    · exact h.not_mem_hyphen rfl
    · exact h.not_mem_hyphen rfl
  · intro t ht
    rcases h.variants t ht with h | h
    · exact h.not_mem_hyphen rfl
    · exact h.1.not_mem_hyphen rfl
  · intro t ht
    obtain ⟨extension, hextension, ht⟩ := List.mem_flatMap.mp ht
    exact (h.extensions extension hextension).not_mem_hyphen t ht
  · rw [Langtag.ending]
    cases hpart : tag.privateUse with
    | none => nofun
    | some part => exact (h.privateUse part hpart).not_mem_hyphen

/-- A text is split into its subtags. -/
theorem splitOn_text (h : ∀ t' ∈ t :: tags, char '-' ∉ t') :
  (text (t :: tags)).splitOn (char '-') = t :: tags
  := List.splitOn_intercalate _ h (List.cons_ne_nil t tags)

/-- A text is accepted if and only if it is a grandfathered tag, or for private use, or a tag that
the grammar derives. -/
theorem validate_iff_derivable (raw : Bytes) :
  validate raw = .ok () ↔ raw ∈ grandfathered
    ∨ (∃ part : PrivateUse, part.Valid ∧ raw = text part.all)
    ∨ ∃ tag : Langtag, tag.Valid ∧ raw = text tag.all
  := by
  have haccepts : validate raw = .ok ()
      ↔ raw ∈ grandfathered ∨ isLangtagOrPrivateUse raw = true := by
    rw [validate, ← List.contains_iff_mem]
    cases grandfathered.contains raw <;> cases isLangtagOrPrivateUse raw <;> simp
  rw [haccepts]
  apply or_congr_right
  constructor
  · intro h
    have hraw : raw = text (raw.splitOn (char '-')) := (List.intercalate_splitOn _).symm
    rw [isLangtagOrPrivateUse] at h
    split at h
    · cases h
    · rename_i primary tags hsplit
      rw [hsplit] at hraw
      split_ifs at h with hx hprimary
      · obtain ⟨b, rfl, hb⟩ := isX_iff.mp hx
        obtain ⟨hne, htags⟩ := isPrivateUse_iff.mp h
        exact .inl ⟨⟨b, tags⟩, ⟨hb, hne, htags⟩, hraw⟩
      · simp only [Bool.or_eq_true, Bool.not_eq_true', Bool.and_eq_false_iff,
          decide_eq_false_iff_not, not_or, not_not, Bool.not_eq_false] at hprimary
        obtain ⟨tag, hvalid, heq⟩ :=
          isLangtagRest_parses (subtag_iff.mpr ⟨hprimary.1, hprimary.2⟩) h
        rw [heq] at hraw
        exact .inr ⟨tag, hvalid, hraw⟩
  · rintro (⟨part, hvalid, rfl⟩ | ⟨tag, hvalid, rfl⟩)
    · rw [isLangtagOrPrivateUse, PrivateUse.all, splitOn_text hvalid.not_mem_hyphen]
      dsimp only
      rw [if_pos (isX_iff.mpr ⟨_, rfl, hvalid.x⟩)]
      exact isPrivateUse_iff.mpr ⟨hvalid.nonempty, hvalid.subtags⟩
    · obtain ⟨⟨hmin, hmax⟩, hlower⟩ := subtag_iff.mp hvalid.primary
      have hnotX : ¬isX tag.primary = true := by
        intro hx
        obtain ⟨b, heq, -⟩ := isX_iff.mp hx
        rw [heq] at hmin
        exact absurd hmin (by simp)
      rw [isLangtagOrPrivateUse, Langtag.all, splitOn_text hvalid.not_mem_hyphen]
      dsimp only
      rw [if_neg hnotX, if_neg, hvalid.isLangtagRest_eq]
      rw [hlower, decide_eq_true hmin, decide_eq_true hmax]
      nofun

/-- Subtags of every kind in their order. -/
example : validate (ascii "de-Latn-DE-1996-a-xyz-x-phonebk") = .ok () := by decide

end Shrike.Syntax.Language
