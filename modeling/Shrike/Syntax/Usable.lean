import Shrike.Syntax.AtUriParts

/-!
# Values of identifiers

The texts that DIDs, NSIDs and AT URIs hold, by whatever way they have come into being, and which of
them the accessors can be used on.
-/

namespace Shrike.Syntax

open Bytes

/-- What holds of a text unless it is the default, and not of the default. -/
theorem iff_ne_nil {Usable : Bytes → Prop} {raw : Bytes} (hnil : ¬Usable [])
    (h : raw = [] ∨ Usable raw) :
  Usable raw ↔ raw ≠ []
  := by
  constructor
  · rintro husable rfl
    exact hnil husable
  · exact fun hne => h.resolve_left hne

/-! ### DIDs -/

namespace Did

/-- The texts that DIDs hold. -/
inductive Obtained : Bytes → Prop
  | tryFrom {raw} (h : Did.validate raw = .ok ()) : Obtained raw
  | deserialize {raw} (h : Did.validate raw = .ok ()) : Obtained raw
  | default : Obtained []

/-- The method of a DID. -/
def methodOf (raw : Bytes) : Option Bytes := do
  let rest ← slice raw 4 raw.length
  slice rest 0 ((find (char ':') rest).getD rest.length)

/-- The identifier of a DID. -/
def identifierOf (raw : Bytes) : Option Bytes := do
  let rest ← slice raw 4 raw.length
  slice rest (min ((find (char ':') rest).getD rest.length + 1) rest.length) rest.length

/-- The accessors return, and the text is valid. -/
structure Usable (raw : Bytes) : Prop where
  method : (methodOf raw).isSome = true
  identifier : (identifierOf raw).isSome = true
  valid : Did.validate raw = .ok ()

/-- A valid DID is a method and an identifier. -/
theorem split_of_validate {raw : Bytes} (h : Did.validate raw = .ok ()) :
  ∃ method ident, raw = ascii "did:" ++ (method ++ char ':' :: ident) ∧ char ':' ∉ method
  := by
  rw [Did.validate] at h
  split_ifs at h
  split at h
  · cases h
  · rename_i afterPrefix hprefix
    split at h
    · cases h
    · rename_i method ident hsplit
      split_ifs at h with hmethod hlower
      rw [Bool.not_eq_true, Bool.not_eq_false', List.all_eq_true] at hlower
      refine ⟨method, ident, ?_, ?_⟩
      · rw [stripPrefix_some hprefix, splitOnce_some hsplit]
      · intro hmem
        exact absurd (hlower _ hmem) (by decide)

theorem usable_of_validate {raw : Bytes} (h : Did.validate raw = .ok ()) :
  Usable raw
  := by
  have hascii := isAscii_of_validate h
  obtain ⟨method, ident, rfl, hnot⟩ := split_of_validate h
  have hrest := slice_right hascii
  have hscheme : (ascii "did:").length = 4 := by decide
  rw [hscheme] at hrest
  rw [isAscii_append] at hascii
  have hright := @slice_right (method ++ [char ':']) ident (by
    rw [List.append_assoc, List.singleton_append]
    exact hascii.2)
  rw [List.append_assoc, List.singleton_append, List.length_append, List.length_singleton] at hright
  constructor
  · rw [methodOf, hrest]
    show (slice _ 0 ((find _ _).getD _)).isSome = true
    rw [find_append hnot, Option.getD_some, slice_left hascii.2]
    rfl
  · rw [identifierOf, hrest]
    show (slice _ (min ((find _ _).getD _ + 1) _) _).isSome = true
    have hlen : method.length + 1 ≤ (method ++ char ':' :: ident).length := by
      rw [List.length_append, List.length_cons]
      omega
    rw [find_append hnot, Option.getD_some, min_eq_left hlen, hright]
    rfl
  · exact h

/-- A DID can be used unless it is the default. -/
theorem usable_iff_of_obtained {raw : Bytes} (h : Obtained raw) :
  Usable raw ↔ raw ≠ []
  := by
  apply iff_ne_nil
  · exact fun husable => absurd husable.valid nofun
  · cases h with
    | tryFrom h => exact .inr (usable_of_validate h)
    | deserialize h => exact .inr (usable_of_validate h)
    | default => exact .inl rfl

end Did

/-! ### NSIDs -/

namespace Nsid

/-- The texts that NSIDs hold: the authority of what is parsed is put in lower case. -/
inductive Obtained : Bytes → Prop
  | tryFrom {raw lastDot} (h : Nsid.validate raw = .ok lastDot) :
      Obtained (lowercasePrefix lastDot raw)
  | deserialize {raw lastDot} (h : Nsid.validate raw = .ok lastDot) :
      Obtained (lowercasePrefix lastDot raw)
  | default : Obtained []

/-- The authority of an NSID: its segments but the last, in reverse. -/
def authorityOf (raw : Bytes) : Option Bytes := do
  let domain ← slice raw 0 ((rfind (char '.') raw).getD 0)
  some (join (char '.') (domain.splitOn (char '.')).reverse)

/-- The name of an NSID: its last segment. -/
def nameOf (raw : Bytes) : Option Bytes := slice raw ((rfind (char '.') raw).getD 0 + 1) raw.length

/-- The accessors return, and the text is valid. -/
structure Usable (raw : Bytes) : Prop where
  authority : (authorityOf raw).isSome = true
  name : (nameOf raw).isSome = true
  valid : ∃ lastDot, Nsid.validate raw = .ok lastDot

theorem usable_of_validate {raw : Bytes} {lastDot : ℕ} (h : Nsid.validate raw = .ok lastDot) :
  Usable raw
  := by
  have hascii := isAscii_of_validate h
  obtain ⟨authority, name, rfl, -, hnot⟩ := split_of_validate h
  have hright := @slice_right (authority ++ [char '.']) name (by
    rwa [List.append_assoc, List.singleton_append])
  rw [List.append_assoc, List.singleton_append, List.length_append, List.length_singleton] at hright
  constructor
  · rw [authorityOf, rfind_append authority hnot, Option.getD_some, slice_left hascii]
    rfl
  · rw [nameOf, rfind_append authority hnot, Option.getD_some, hright]
    rfl
  · exact ⟨lastDot, h⟩

/-- An NSID can be used unless it is the default. -/
theorem usable_iff_of_obtained {raw : Bytes} (h : Obtained raw) :
  Usable raw ↔ raw ≠ []
  := by
  apply iff_ne_nil
  · rintro ⟨-, -, lastDot, hvalid⟩
    cases hvalid
  · cases h with
    | tryFrom h => exact .inr (usable_of_validate (validate_lowercasePrefix h))
    | deserialize h => exact .inr (usable_of_validate (validate_lowercasePrefix h))
    | default => exact .inl rfl

end Nsid

/-! ### AT URIs -/

namespace AtUri

/-- The texts that AT URIs hold. -/
inductive Obtained : Bytes → Prop
  | tryFrom {raw} (h : validate raw = .ok ()) : Obtained raw
  | deserialize {raw} (h : validate raw = .ok ()) : Obtained raw
  | default : Obtained []

/-- The accessors return, and the text is valid. The fragment of a text is always returned. -/
structure Usable (raw : Bytes) : Prop where
  authority : (authority raw).isSome = true
  collection : (collection raw).isSome = true
  rkey : (rkey raw).isSome = true
  valid : validate raw = .ok ()

theorem usable_of_validate {raw : Bytes} (h : validate raw = .ok ()) :
  Usable raw
  := by
  obtain ⟨-, parts, hvalid, rfl⟩ := validate_iff.mp h
  have hyields := hvalid.yields
  constructor
  · rw [hyields.authority]
    rfl
  · rw [hyields.collection]
    rfl
  · rw [hyields.rkey]
    rfl
  · exact h

/-- A URI can be used unless it is the default. -/
theorem usable_iff_of_obtained {raw : Bytes} (h : Obtained raw) :
  Usable raw ↔ raw ≠ []
  := by
  apply iff_ne_nil
  · exact fun husable => absurd husable.valid nofun
  · cases h with
    | tryFrom h => exact .inr (usable_of_validate h)
    | deserialize h => exact .inr (usable_of_validate h)
    | default => exact .inl rfl

end AtUri

/-! ### All of them -/

/-- The identifiers that can be used are those that are not the default. -/
theorem identifiers_usable_iff (raw : Bytes) :
  (Did.Obtained raw → (Did.Usable raw ↔ raw ≠ []))
    ∧ (Nsid.Obtained raw → (Nsid.Usable raw ↔ raw ≠ []))
    ∧ (AtUri.Obtained raw → (AtUri.Usable raw ↔ raw ≠ []))
  := ⟨Did.usable_iff_of_obtained, Nsid.usable_iff_of_obtained, AtUri.usable_iff_of_obtained⟩

set_option maxRecDepth 2000 in
/-- An identifier of each kind that has been parsed can be used. -/
theorem parsed_identifiers_usable :
  (Did.Usable (ascii "did:plc:abc") ↔ ascii "did:plc:abc" ≠ [])
    ∧ (Nsid.Usable (ascii "app.bsky.feed.post") ↔ ascii "app.bsky.feed.post" ≠ [])
    ∧ (AtUri.Usable (ascii "at://alice.test") ↔ ascii "at://alice.test" ≠ [])
  := ⟨(identifiers_usable_iff _).1 (.tryFrom rfl),
    (identifiers_usable_iff _).2.1 (@Nsid.Obtained.tryFrom (ascii "App.Bsky.feed.post") 13 rfl),
    (identifiers_usable_iff _).2.2 (.tryFrom rfl)⟩

/-- The accessors of the defaults slice out of range, but for the authority of an NSID, and none of
the defaults is valid. -/
theorem defaults_unusable :
  Did.Obtained [] ∧ Did.methodOf [] = none ∧ Did.identifierOf [] = none ∧ Did.validate [] ≠ .ok ()
    ∧ Nsid.Obtained [] ∧ Nsid.nameOf [] = none ∧ (∀ lastDot, Nsid.validate [] ≠ .ok lastDot)
    ∧ AtUri.Obtained [] ∧ AtUri.authority [] = none ∧ AtUri.collection [] = none
    ∧ AtUri.rkey [] = none ∧ AtUri.validate [] ≠ .ok ()
  := ⟨.default, rfl, rfl, nofun, .default, rfl, nofun, .default, rfl, rfl, rfl, nofun⟩

end Shrike.Syntax
