import Shrike.Data.Percent
import Shrike.Data.Utf8
import Shrike.Syntax.Identifier

/-!
# The parts of AT URIs

How a URI is taken apart, and that the parts of a valid URI are valid and make it up.
-/

/-!
## AT identifiers and AT URIs

An AT identifier is a DID or a handle. An AT URI names a repository by one, and in it a collection
or a record, and has a fragment that points into the record.
-/

namespace Shrike.Syntax

open Bytes

/-- Validate an AT identifier. -/
def AtIdentifier.validate (raw : Bytes) : Except String Unit :=
  if (stripPrefix (ascii "did:") raw).isSome then Did.validate raw else Handle.validate raw

namespace AtUri

/-- The characters of a fragment. -/
def isFragmentChar (b : UInt8) : Bool :=
  isAsciiAlphanumeric b || (ascii "._~:@!$&'()*+,;=%[]/-").contains b

/-- Validate a fragment: a JSON pointer whose escapes decode to UTF-8. -/
def validateFragment (fragment : Bytes) : Except String Unit :=
  if fragment.head? ≠ some (char '/') then .error "must be a JSON pointer, starting with '/'"
  else if !fragment.all isFragmentChar then .error "invalid character"
  else match unescape fragment with
    | none => .error "'%' must be followed by two hex digits"
    | some decoded => if utf8 decoded then .ok () else .error "percent-encoding is not UTF-8"

/-- Validate the record key of a URI. -/
def validateRkey (rkey : Bytes) : Except String Unit :=
  if rkey = [] then .error "trailing slash without record key"
  else (RecordKey.validate rkey).mapError ("invalid record key: " ++ ·)

/-- Validate the collection of a URI, and the record key behind it. -/
def validatePath (path : Bytes) : Except String Unit :=
  if path = [] then .error "trailing slash without collection"
  else
    let (collection, rkey) := match splitOnce (char '/') path with
      | some (collection, rkey) => (collection, some rkey)
      | none => (path, none)
    if collection = [] then .error "empty collection segment"
    else match Nsid.validate collection with
      | .error e => .error ("invalid collection: " ++ e)
      | .ok _ => rkey.elim (.ok ()) validateRkey

/-- Validate what follows the scheme of a URI. -/
def validateAuthority (rest : Bytes) : Except String Unit :=
  let (authority, path) := match splitOnce (char '/') rest with
    | some (authority, path) => (authority, some path)
    | none => (rest, none)
  if authority = [] then .error "empty authority"
  else match AtIdentifier.validate authority with
    | .error e => .error ("invalid authority: " ++ e)
    | .ok () => path.elim (.ok ()) validatePath

/-- Validate a URI without its fragment. -/
def validateUri (uri : Bytes) : Except String Unit :=
  match stripPrefix (ascii "at://") uri with
  | none => .error "must start with \"at://\""
  | some rest => validateAuthority rest

/-- Validate an AT URI. -/
def validate (raw : Bytes) : Except String Unit :=
  if raw = [] then .error "empty"
  else if 8192 < raw.length then .error "too long"
  else match splitOnce (char '#') raw with
    | none => validateUri raw
    | some (uri, fragment) => do
        (validateFragment fragment).mapError ("invalid fragment: " ++ ·)
        validateUri uri

end AtUri

end Shrike.Syntax

/-! ## The parts of AT URIs -/

namespace Shrike.Syntax

open Bytes

/-! ### Characters -/

variable {b : UInt8}

/-- The characters of identifiers. -/
theorem isDidIdentChar_of_isAlphanumericOrHyphen (h : Nsid.isAlphanumericOrHyphen b = true) :
  isDidIdentChar b = true
  := by
  rw [Nsid.isAlphanumericOrHyphen, Bool.or_eq_true] at h
  rw [isDidIdentChar]
  rcases h with h | h
  · rw [h]
    rfl
  · rw [h, Bool.or_true]

variable {raw : Bytes}

/-- A valid DID is characters of identifiers. -/
theorem Did.chars_of_validate (h : Did.validate raw = .ok ()) :
  ∀ b ∈ raw, isDidIdentChar b = true
  := by
  rw [Did.validate] at h
  split_ifs at h
  split at h
  · cases h
  · rename_i afterPrefix hprefix
    split at h
    · cases h
    · rename_i method ident hsplit
      split_ifs at h with hmethod hlower hident hchars
      rw [Bool.not_eq_true, Bool.not_eq_false', List.all_eq_true] at hlower hchars
      rw [stripPrefix_some hprefix, splitOnce_some hsplit]
      simp only [List.forall_mem_append, List.forall_mem_cons]
      refine ⟨by decide +kernel, ?_, by decide, hchars⟩
      intro b hb
      rw [isDidIdentChar, isAsciiAlphanumeric, isAsciiAlphabetic, hlower b hb]
      simp

theorem Handle.chars_of_validateLabels {labels : List Bytes}
    (h : Handle.validateLabels labels = .ok ()) :
  ∀ label ∈ labels, ∀ b ∈ label, Nsid.isAlphanumericOrHyphen b = true
  := by
  induction labels with
  | nil => nofun
  | cons label labels ih =>
      rw [Handle.validateLabels] at h
      split at h
      · cases h
      · obtain ⟨_, hlabel, h⟩ := Except.bind_eq_ok.mp h
        rw [List.forall_mem_cons]
        exact ⟨Nsid.chars_of_validateDomainLabel hlabel, ih h⟩

/-- A valid handle is characters of identifiers. -/
theorem Handle.chars_of_validate (h : Handle.validate raw = .ok ()) :
  ∀ b ∈ raw, isDidIdentChar b = true
  := by
  rw [Handle.validate] at h
  split_ifs at h
  obtain ⟨_, hlabels, -⟩ := Except.bind_eq_ok.mp h
  intro b hb
  rw [← @List.intercalate_splitOn _ raw _ _ (char '.')] at hb
  rcases mem_join hb with rfl | ⟨label, hlabel, hb⟩
  · decide
  · apply isDidIdentChar_of_isAlphanumericOrHyphen
    exact Handle.chars_of_validateLabels hlabels label hlabel b hb

/-- A valid AT identifier is characters of identifiers. -/
theorem AtIdentifier.chars_of_validate (h : AtIdentifier.validate raw = .ok ()) :
  ∀ b ∈ raw, isDidIdentChar b = true
  := by
  rw [AtIdentifier.validate] at h
  split_ifs at h
  · exact Did.chars_of_validate h
  · exact Handle.chars_of_validate h

theorem RecordKey.chars_of_validate (h : RecordKey.validate raw = .ok ()) :
  ∀ b ∈ raw, isRecordKeyChar b = true
  := by
  rw [RecordKey.validate] at h
  split_ifs at h with hempty hlong hdots hchars
  rw [Bool.not_eq_true, Bool.not_eq_false', List.all_eq_true] at hchars
  exact hchars

/-- The characters of the parts of a URI are ASCII, and no separators. -/
theorem isUriChar (h : isRecordKeyChar b = true) :
  b < 0x80 ∧ b ≠ char '/' ∧ b ≠ char '#'
  := by
  simp only [isRecordKeyChar, Bool.or_eq_true, beq_iff_eq] at h
  rcases h with ((((h | rfl) | rfl) | rfl) | rfl) | rfl
  · refine ⟨lt_of_isAsciiAlphanumeric h, ?_, ?_⟩
    · rintro rfl
      exact absurd h (by decide)
    · rintro rfl
      exact absurd h (by decide)
  · decide
  · decide
  · decide
  · decide
  · decide

theorem isRecordKeyChar_of_isDidIdentChar (h : isDidIdentChar b = true) :
  isRecordKeyChar b = true
  := by
  simp only [isDidIdentChar, Bool.or_eq_true, beq_iff_eq] at h
  simp only [isRecordKeyChar, Bool.or_eq_true, beq_iff_eq]
  tauto

theorem Did.isAscii_of_validate (h : Did.validate raw = .ok ()) :
  IsAscii raw
  := fun b hb => (isUriChar (isRecordKeyChar_of_isDidIdentChar (Did.chars_of_validate h b hb))).1

theorem lt_of_isFragmentChar (h : AtUri.isFragmentChar b = true) :
  b < 0x80 ∧ b ≠ char '#'
  := by
  rw [AtUri.isFragmentChar, Bool.or_eq_true] at h
  rcases h with h | h
  · refine ⟨lt_of_isAsciiAlphanumeric h, ?_⟩
    rintro rfl
    exact absurd h (by decide)
  · have hall : ∀ b ∈ ascii "._~:@!$&'()*+,;=%[]/-", b < 0x80 ∧ b ≠ char '#' := by
      decide +kernel
    exact hall b (List.contains_iff_mem.mp h)

namespace AtUri

/-! ### Parts -/

/-- The parts of a URI: the authority, the collection and in it the record key, and the
fragment. -/
structure Parts where
  authority : Bytes
  path : Option (Bytes × Option Bytes)
  fragment : Option Bytes

/-- A fragment starts with a slash, has the characters that are allowed, and its escapes decode to
UTF-8. -/
structure ValidFragment (fragment : Bytes) : Prop where
  start : fragment.head? = some (char '/')
  chars : ∀ b ∈ fragment, isFragmentChar b = true
  decodes : ∃ decoded, unescape fragment = some decoded ∧ utf8 decoded = true

theorem validateFragment_iff {fragment : Bytes} :
  validateFragment fragment = .ok () ↔ ValidFragment fragment
  := by
  rw [validateFragment]
  constructor
  · intro h
    split_ifs at h with hstart hchars
    rw [Bool.not_eq_true, Bool.not_eq_false', List.all_eq_true] at hchars
    split at h
    · cases h
    · rename_i decoded hdecoded
      split_ifs at h with hutf8
      exact ⟨not_not.mp hstart, hchars, decoded, hdecoded, hutf8⟩
  · intro h
    obtain ⟨decoded, hdecoded, hutf8⟩ := h.decodes
    rw [if_neg (not_not.mpr h.start), if_neg, hdecoded]
    · exact if_pos hutf8
    · rw [Bool.not_eq_true, Bool.not_eq_false', List.all_eq_true]
      exact h.chars

namespace Parts

/-- The collection. -/
def collection (parts : Parts) : Option Bytes := parts.path.map Prod.fst

/-- The record key. -/
def rkey (parts : Parts) : Option Bytes := parts.path.bind Prod.snd

/-- The text of a path. -/
def joinPath (path : Bytes × Option Bytes) : Bytes :=
  path.1 ++ path.2.elim [] (char '/' :: ·)

/-- The text of a URI behind its scheme and before its fragment. -/
def joinRest (parts : Parts) : Bytes :=
  parts.authority ++ parts.path.elim [] fun path => char '/' :: joinPath path

/-- The URI that parts make up. -/
def join (parts : Parts) : Bytes :=
  (ascii "at://" ++ parts.joinRest) ++ parts.fragment.elim [] (char '#' :: ·)

/-- The parts are valid, each for itself. -/
structure Valid (parts : Parts) : Prop where
  authority : AtIdentifier.validate parts.authority = .ok ()
  collection : ∀ collection ∈ parts.collection, ∃ lastDot, Nsid.validate collection = .ok lastDot
  rkey : ∀ rkey ∈ parts.rkey, RecordKey.validate rkey = .ok ()
  fragment : ∀ fragment ∈ parts.fragment, ValidFragment fragment

end Parts

/-! ### Validation -/

theorem validateRkey_iff {rkey : Bytes} :
  validateRkey rkey = .ok () ↔ RecordKey.validate rkey = .ok ()
  := by
  rw [validateRkey]
  split_ifs with hempty
  · rw [hempty]
    constructor <;> nofun
  · cases RecordKey.validate rkey with
    | error e => constructor <;> nofun
    | ok u => exact ⟨fun _ => rfl, fun _ => rfl⟩

/-- A path is valid if its collection is, and its record key if it has one. -/
theorem validatePath_iff {path : Bytes} :
  validatePath path = .ok () ↔ ∃ parts : Bytes × Option Bytes, path = Parts.joinPath parts
    ∧ (∃ lastDot, Nsid.validate parts.1 = .ok lastDot)
    ∧ ∀ rkey ∈ parts.2, RecordKey.validate rkey = .ok ()
  := by
  constructor
  · intro h
    rw [validatePath] at h
    split_ifs at h with hempty
    cases hsplit : splitOnce (char '/') path with
    | none =>
        rw [hsplit] at h
        dsimp only at h
        rw [if_neg hempty] at h
        cases hnsid : Nsid.validate path with
        | error e =>
            rw [hnsid] at h
            cases h
        | ok lastDot => exact ⟨(path, none), (List.append_nil path).symm, ⟨lastDot, hnsid⟩, nofun⟩
    | some split =>
        obtain ⟨collection, rkey⟩ := split
        rw [hsplit] at h
        dsimp only at h
        split_ifs at h with hcollection
        cases hnsid : Nsid.validate collection with
        | error e =>
            rw [hnsid] at h
            cases h
        | ok lastDot =>
            rw [hnsid] at h
            refine ⟨(collection, some rkey), splitOnce_some hsplit, ⟨lastDot, hnsid⟩, ?_⟩
            rintro rkey' ⟨⟩
            exact validateRkey_iff.mp h
  · rintro ⟨⟨collection, rkey⟩, rfl, ⟨lastDot, hnsid⟩, hrkey⟩
    have hne : collection ≠ [] := by
      rintro rfl
      cases hnsid
    have hnot : char '/' ∉ collection := by
      intro hmem
      rcases Nsid.chars_of_validate hnsid _ hmem with h | h
      · exact absurd h (by decide)
      · exact absurd h (by decide)
    rw [validatePath, Parts.joinPath]
    cases rkey with
    | none =>
        rw [Option.elim_none, List.append_nil, if_neg hne, splitOnce_eq_none hnot]
        dsimp only
        rw [if_neg hne, hnsid]
        rfl
    | some rkey =>
        rw [Option.elim_some, if_neg (by simp), splitOnce_append hnot]
        dsimp only
        rw [if_neg hne, hnsid]
        exact validateRkey_iff.mpr (hrkey rkey rfl)

/-- What follows the scheme is valid if the authority is, and the path if there is one. -/
theorem validateAuthority_iff {rest : Bytes} :
  validateAuthority rest = .ok () ↔ ∃ parts : Parts, parts.Valid ∧ parts.fragment = none
    ∧ rest = parts.joinRest
  := by
  constructor
  · intro h
    rw [validateAuthority] at h
    cases hsplit : splitOnce (char '/') rest with
    | none =>
        rw [hsplit] at h
        dsimp only at h
        split_ifs at h
        cases hauthority : AtIdentifier.validate rest with
        | error e =>
            rw [hauthority] at h
            cases h
        | ok u =>
            exact ⟨⟨rest, none, none⟩, ⟨hauthority, nofun, nofun, nofun⟩, rfl,
              (List.append_nil rest).symm⟩
    | some split =>
        obtain ⟨authority, path⟩ := split
        rw [hsplit] at h
        dsimp only at h
        split_ifs at h
        cases hauthority : AtIdentifier.validate authority with
        | error e =>
            rw [hauthority] at h
            cases h
        | ok u =>
            rw [hauthority] at h
            obtain ⟨⟨collection, rkey⟩, rfl, hcollection, hrkey⟩ := validatePath_iff.mp h
            refine ⟨⟨authority, some (collection, rkey), none⟩, ⟨hauthority, ?_, hrkey, nofun⟩, rfl,
              splitOnce_some hsplit⟩
            rintro collection' ⟨⟩
            exact hcollection
  · rintro ⟨⟨authority, path, fragment⟩, hvalid, -, rfl⟩
    have hauthority := hvalid.authority
    have hne : authority ≠ [] := by
      rintro rfl
      cases hauthority
    have hnot : char '/' ∉ authority := by
      intro hmem
      exact absurd (AtIdentifier.chars_of_validate hauthority _ hmem) (by decide)
    rw [validateAuthority, Parts.joinRest]
    cases path with
    | none =>
        rw [Option.elim_none, List.append_nil, splitOnce_eq_none hnot]
        dsimp only at hauthority ⊢
        rw [if_neg hne, hauthority]
        rfl
    | some path =>
        rw [Option.elim_some, splitOnce_append hnot]
        dsimp only at hauthority ⊢
        rw [if_neg hne, hauthority]
        apply validatePath_iff.mpr
        exact ⟨path, rfl, hvalid.collection path.1 rfl, hvalid.rkey⟩

/-- A valid path has no number sign, and is ASCII. -/
theorem Parts.Valid.chars {parts : Parts} (h : parts.Valid) :
  ∀ b ∈ parts.joinRest, b < 0x80 ∧ b ≠ char '#'
  := by
  have hkey : ∀ {b : UInt8}, isRecordKeyChar b = true → b < 0x80 ∧ b ≠ char '#' := fun hb =>
    ⟨(isUriChar hb).1, (isUriChar hb).2.2⟩
  obtain ⟨authority, path, fragment⟩ := parts
  rw [Parts.joinRest, List.forall_mem_append]
  constructor
  · intro b hb
    apply hkey
    apply isRecordKeyChar_of_isDidIdentChar
    exact AtIdentifier.chars_of_validate h.authority b hb
  · cases path with
    | none => nofun
    | some path =>
        obtain ⟨collection, rkey⟩ := path
        obtain ⟨lastDot, hcollection⟩ := h.collection collection rfl
        rw [Option.elim_some, List.forall_mem_cons, Parts.joinPath, List.forall_mem_append]
        refine ⟨by decide, ?_, ?_⟩
        · intro b hb
          rcases Nsid.chars_of_validate hcollection b hb with hb | rfl
          · apply hkey
            apply isRecordKeyChar_of_isDidIdentChar
            exact isDidIdentChar_of_isAlphanumericOrHyphen hb
          · decide
        · cases rkey with
          | none => nofun
          | some rkey =>
              rw [Option.elim_some, List.forall_mem_cons]
              refine ⟨by decide, ?_⟩
              intro b hb
              exact hkey (RecordKey.chars_of_validate (h.rkey rkey rfl) b hb)

theorem validateUri_iff {uri : Bytes} :
  validateUri uri = .ok () ↔ ∃ parts : Parts, parts.Valid ∧ parts.fragment = none
    ∧ uri = ascii "at://" ++ parts.joinRest
  := by
  rw [validateUri]
  constructor
  · intro h
    split at h
    · cases h
    · rename_i rest hprefix
      obtain ⟨parts, hvalid, hfragment, rfl⟩ := validateAuthority_iff.mp h
      exact ⟨parts, hvalid, hfragment, stripPrefix_some hprefix⟩
  · rintro ⟨parts, hvalid, hfragment, rfl⟩
    rw [stripPrefix_append]
    exact validateAuthority_iff.mpr ⟨parts, hvalid, hfragment, rfl⟩

/-- A URI is valid if it is made up of valid parts and is not too long. -/
theorem validate_iff {raw : Bytes} :
  validate raw = .ok () ↔ raw.length ≤ 8192 ∧ ∃ parts : Parts, parts.Valid ∧ raw = parts.join
  := by
  constructor
  · intro h
    rw [validate] at h
    split_ifs at h with hempty hlong
    refine ⟨not_lt.mp hlong, ?_⟩
    cases hsplit : splitOnce (char '#') raw with
    | none =>
        rw [hsplit] at h
        obtain ⟨parts, hvalid, hfragment, rfl⟩ := validateUri_iff.mp h
        refine ⟨parts, hvalid, ?_⟩
        rw [Parts.join, hfragment]
        exact (List.append_nil _).symm
    | some split =>
        obtain ⟨uri, fragment⟩ := split
        rw [hsplit] at h
        dsimp only at h
        cases hfragment : validateFragment fragment with
        | error e =>
            rw [hfragment] at h
            cases h
        | ok u =>
            rw [hfragment] at h
            obtain ⟨parts, hvalid, hnone, rfl⟩ := validateUri_iff.mp h
            refine ⟨⟨parts.authority, parts.path, some fragment⟩,
              ⟨hvalid.authority, hvalid.collection, hvalid.rkey, ?_⟩, splitOnce_some hsplit⟩
            rintro fragment' ⟨⟩
            exact validateFragment_iff.mp hfragment
  · rintro ⟨hlong, parts, hvalid, rfl⟩
    have hne : parts.join ≠ [] := by
      rw [Parts.join, List.append_assoc]
      nofun
    have hnot : char '#' ∉ ascii "at://" ++ parts.joinRest := by
      rw [List.mem_append]
      rintro (hmem | hmem)
      · exact absurd hmem (by decide)
      · exact (hvalid.chars _ hmem).2 rfl
    have huri : validateUri (ascii "at://" ++ parts.joinRest) = .ok () :=
      validateUri_iff.mpr ⟨⟨parts.authority, parts.path, none⟩,
        ⟨hvalid.authority, hvalid.collection, hvalid.rkey, nofun⟩, rfl, rfl⟩
    rw [validate, if_neg hne, if_neg (not_lt.mpr hlong), Parts.join]
    cases hfragment : parts.fragment with
    | none =>
        rw [Option.elim_none, List.append_nil, splitOnce_eq_none hnot]
        exact huri
    | some fragment =>
        rw [Option.elim_some, splitOnce_append hnot]
        dsimp only
        rw [validateFragment_iff.mpr (hvalid.fragment fragment hfragment)]
        exact huri

/-! ### Accessors -/

/-- The URI after its scheme and before its fragment. -/
def afterScheme (raw : Bytes) : Option Bytes := slice raw 5 ((find (char '#') raw).getD raw.length)

/-- What is before the first slash of a text. -/
def beforeSlash (text : Bytes) : Option Bytes :=
  match find (char '/') text with
  | some idx => slice text 0 idx
  | none => some text

/-- What is behind the first slash of a text, if it has one. -/
def behindSlash (text : Bytes) : Option (Option Bytes) :=
  match find (char '/') text with
  | some idx => (slice text (idx + 1) text.length).map some
  | none => some none

/-- The authority of a URI. -/
def authority (raw : Bytes) : Option Bytes := do
  let rest ← afterScheme raw
  beforeSlash rest

/-- The collection of a URI, if it has one. -/
def collection (raw : Bytes) : Option (Option Bytes) := do
  let rest ← afterScheme raw
  match ← behindSlash rest with
  | none => some none
  | some afterAuth => if afterAuth = [] then some none else (beforeSlash afterAuth).map some

/-- The record key of a URI, if it has one. -/
def rkey (raw : Bytes) : Option (Option Bytes) := do
  let rest ← afterScheme raw
  match ← behindSlash rest with
  | none => some none
  | some afterAuth =>
      match ← behindSlash afterAuth with
      | none => some none
      | some afterColl => some (if afterColl = [] then none else some afterColl)

/-- The fragment of a URI, if it has one. -/
def fragment (raw : Bytes) : Option Bytes := (splitOnce (char '#') raw).map Prod.snd

/-- The accessors return the given parts. -/
structure Yields (raw : Bytes) (parts : Parts) : Prop where
  authority : authority raw = some parts.authority
  collection : collection raw = some parts.collection
  rkey : rkey raw = some parts.rkey
  fragment : fragment raw = parts.fragment

theorem cut_of_not_mem {text : Bytes} (h : char '/' ∉ text) :
  beforeSlash text = some text ∧ behindSlash text = some none
  := by
  rw [beforeSlash, behindSlash, find_eq_none h]
  exact ⟨rfl, rfl⟩

theorem cut_append {before behind : Bytes} (hascii : IsAscii (before ++ char '/' :: behind))
    (h : char '/' ∉ before) :
  beforeSlash (before ++ char '/' :: behind) = some before
    ∧ behindSlash (before ++ char '/' :: behind) = some (some behind)
  := by
  have hright := @slice_right (before ++ [char '/']) behind (by
    rwa [List.append_assoc, List.singleton_append])
  rw [List.append_assoc, List.singleton_append, List.length_append, List.length_singleton]
    at hright
  rw [beforeSlash, behindSlash, find_append h]
  dsimp only
  rw [slice_left hascii, hright]
  exact ⟨rfl, rfl⟩

namespace Parts.Valid

variable {parts : Parts} (h : parts.Valid)

include h

theorem isAscii_joinRest :
  IsAscii parts.joinRest
  := fun b hb => (h.chars b hb).1

theorem isAscii_join :
  IsAscii parts.join
  := by
  rw [join, isAscii_append, isAscii_append]
  refine ⟨⟨by decide +kernel, h.isAscii_joinRest⟩, ?_⟩
  cases hfragment : parts.fragment with
  | none => nofun
  | some fragment =>
      rw [Option.elim_some, isAscii_cons]
      refine ⟨by decide, ?_⟩
      intro b hb
      exact (lt_of_isFragmentChar ((h.fragment fragment hfragment).chars b hb)).1

theorem not_mem_number_sign :
  char '#' ∉ ascii "at://" ++ parts.joinRest
  := by
  rw [List.mem_append]
  rintro (hmem | hmem)
  · exact absurd hmem (by decide)
  · exact (h.chars _ hmem).2 rfl

/-- What is behind the scheme is found. -/
theorem afterScheme_join :
  afterScheme parts.join = some parts.joinRest
  := by
  have hscheme : (ascii "at://").length = 5 := by decide
  have hend : (find (char '#') parts.join).getD parts.join.length
      = (ascii "at://").length + parts.joinRest.length := by
    rw [← List.length_append, join]
    cases parts.fragment with
    | none =>
        rw [Option.elim_none, List.append_nil, find_eq_none h.not_mem_number_sign]
        rfl
    | some fragment =>
        rw [Option.elim_some, find_append h.not_mem_number_sign]
        rfl
  rw [afterScheme, hend, ← hscheme]
  exact slice_append h.isAscii_join

theorem not_mem_slash_authority :
  char '/' ∉ parts.authority
  := by
  intro hmem
  exact absurd (AtIdentifier.chars_of_validate h.authority _ hmem) (by decide)

/-- The accessors return the parts of which a URI is made up. -/
theorem yields :
  Yields parts.join parts
  := by
  have hscheme := h.afterScheme_join
  have hnot := h.not_mem_slash_authority
  have hascii := h.isAscii_joinRest
  obtain ⟨hbefore, hbehind⟩ : beforeSlash parts.joinRest = some parts.authority
      ∧ behindSlash parts.joinRest = some (parts.path.map joinPath) := by
    rw [joinRest] at hascii ⊢
    cases hpath : parts.path with
    | none =>
        rw [Option.elim_none, List.append_nil]
        exact cut_of_not_mem hnot
    | some path =>
        rw [hpath, Option.elim_some] at hascii
        rw [Option.elim_some]
        exact cut_append hascii hnot
  have hpath : ∀ path, parts.path = some path → joinPath path ≠ []
      ∧ beforeSlash (joinPath path) = some path.1 ∧ behindSlash (joinPath path) = some path.2 := by
    rintro ⟨collection, rkey⟩ hsome
    obtain ⟨lastDot, hcollection⟩ := h.collection collection (by rw [Parts.collection, hsome]; rfl)
    have hne : collection ≠ [] := by
      rintro rfl
      cases hcollection
    have hnot' : char '/' ∉ collection := by
      intro hmem
      rcases Nsid.chars_of_validate hcollection _ hmem with hb | hb
      · exact absurd hb (by decide)
      · exact absurd hb (by decide)
    rw [joinRest, hsome, Option.elim_some, isAscii_append, isAscii_cons] at hascii
    have hascii' := hascii.2.2
    rw [joinPath] at hascii' ⊢
    cases rkey with
    | none =>
        rw [Option.elim_none, List.append_nil]
        exact ⟨hne, cut_of_not_mem hnot'⟩
    | some rkey =>
        rw [Option.elim_some] at hascii' ⊢
        exact ⟨by simp, cut_append hascii' hnot'⟩
  constructor
  · rw [AtUri.authority, hscheme]
    exact hbefore
  · rw [AtUri.collection, hscheme]
    show (behindSlash parts.joinRest).bind _ = _
    rw [hbehind, Parts.collection]
    cases hsome : parts.path with
    | none => rfl
    | some path =>
        obtain ⟨hne, hfirst, -⟩ := hpath path hsome
        show (if joinPath path = [] then some none else (beforeSlash (joinPath path)).map some) = _
        rw [if_neg hne, hfirst]
        rfl
  · rw [AtUri.rkey, hscheme]
    show (behindSlash parts.joinRest).bind _ = _
    rw [hbehind, Parts.rkey]
    cases hsome : parts.path with
    | none => rfl
    | some path =>
        obtain ⟨-, -, hsecond⟩ := hpath path hsome
        show (behindSlash (joinPath path)).bind _ = _
        rw [hsecond]
        obtain ⟨collection, rkey⟩ := path
        cases rkey with
        | none => rfl
        | some rkey =>
            have hrkey := h.rkey rkey (by rw [Parts.rkey, hsome]; rfl)
            have hnonempty : rkey ≠ [] := by
              rintro rfl
              cases hrkey
            show some (if rkey = [] then none else some rkey) = some (some rkey)
            rw [if_neg hnonempty]
  · rw [AtUri.fragment, join]
    cases parts.fragment with
    | none =>
        rw [Option.elim_none, List.append_nil, splitOnce_eq_none h.not_mem_number_sign]
        rfl
    | some fragment =>
        rw [Option.elim_some, splitOnce_append h.not_mem_number_sign]
        rfl

end Parts.Valid

/-- A valid URI is made up of the parts that its accessors return, which are valid; and every URI that
valid parts make up, and that is not too long, is valid and has those parts. -/
theorem uri_parts :
  (∀ raw, validate raw = .ok () →
      ∃ parts : Parts, parts.Valid ∧ raw = parts.join ∧ Yields raw parts)
    ∧ ∀ parts : Parts, parts.Valid → parts.join.length ≤ 8192 →
      validate parts.join = .ok () ∧ Yields parts.join parts
  := by
  constructor
  · intro raw h
    obtain ⟨-, parts, hvalid, rfl⟩ := validate_iff.mp h
    exact ⟨parts, hvalid, rfl, hvalid.yields⟩
  · intro parts hvalid hlong
    exact ⟨validate_iff.mpr ⟨hlong, parts, hvalid, rfl⟩, hvalid.yields⟩

/-- A URI with a fragment is valid if its two parts are. -/
theorem validate_of_split {raw uri fragment : Bytes}
    (hsplit : splitOnce (char '#') raw = some (uri, fragment)) (hlong : raw.length ≤ 8192)
    (hfragment : validateFragment fragment = .ok ()) (huri : validateUri uri = .ok ()) :
  validate raw = .ok ()
  := by
  have hne : raw ≠ [] := by
    rintro rfl
    cases hsplit
  rw [validate, if_neg hne, if_neg (not_lt.mpr hlong), hsplit]
  dsimp only
  rw [hfragment]
  exact huri

/-- The record of a URI, with a fragment that points into it. -/
theorem record_uri_parts :
  ∃ parts : Parts, parts.Valid ∧ ascii "at://did:plc:abc/app.bsky.feed.post/3k#/text" = parts.join
    ∧ Yields (ascii "at://did:plc:abc/app.bsky.feed.post/3k#/text") parts
  := uri_parts.1 _ (@validate_of_split _ (ascii "at://did:plc:abc/app.bsky.feed.post/3k")
    (ascii "/text") (by decide) (by decide) rfl rfl)

/-! ### JSON pointers -/

/-- The tokens of a JSON pointer: a tilde stands before a zero or a one only. -/
def tildesEscape : Bytes → Bool
  | [] => true
  | b :: bs =>
      (b ≠ char '~' || bs.head? = some (char '0') || bs.head? = some (char '1')) && tildesEscape bs

/-- Whether a text is a JSON pointer: nothing, or tokens behind slashes. -/
def isJsonPointer (pointer : Bytes) : Bool :=
  (pointer = [] || pointer.head? = some (char '/')) && tildesEscape pointer

/-- The fragment of a valid URI need not be a JSON pointer, and the JSON pointer to a record as a whole
is no fragment of a valid URI. -/
theorem fragment_not_pointer :
  (validate (ascii "at://alice.test#/~") = .ok ()
      ∧ fragment (ascii "at://alice.test#/~") = some (ascii "/~")
      ∧ isJsonPointer (ascii "/~") = false)
    ∧ isJsonPointer [] = true ∧ validate (ascii "at://alice.test#") ≠ .ok ()
  := by
  have hempty : validateFragment [] ≠ .ok () := nofun
  refine ⟨⟨@validate_of_split _ (ascii "at://alice.test") (ascii "/~") (by decide +kernel)
    (by decide +kernel) (by decide +kernel) (by decide +kernel), by decide +kernel,
    by decide +kernel⟩, by decide, ?_⟩
  intro h
  obtain ⟨-, parts, hvalid, heq⟩ := validate_iff.mp h
  have hfragment : fragment (ascii "at://alice.test#") = some [] := by decide
  rw [heq, hvalid.yields.fragment] at hfragment
  exact hempty (validateFragment_iff.mpr (hvalid.fragment [] hfragment))

end AtUri

end Shrike.Syntax
