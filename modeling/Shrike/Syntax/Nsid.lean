import Shrike.Data.Result
import Shrike.Data.Text

/-!
# Namespaced identifiers

The validation of an NSID: dot-separated segments, of which all but the last are the labels of
a domain in reverse order and the last is a name.
-/

namespace Shrike.Syntax.Nsid

open Bytes

/-- Letters, digits and hyphens. -/
def isAlphanumericOrHyphen (b : UInt8) : Bool := isAsciiAlphanumeric b || b == char '-'

/-- Validate a domain label. -/
def validateDomainLabel (label : Bytes) : Except String Unit :=
  match label with
  | [] => .error "empty label"
  | first :: rest =>
      if 63 < label.length then .error "label too long"
      else if !isAsciiAlphanumeric first then .error "label must start with alphanumeric"
      else if !isAsciiAlphanumeric (label.getLastD first) then
        .error "label must end with alphanumeric"
      else if !rest.dropLast.all isAlphanumericOrHyphen then .error "invalid character in label"
      else .ok ()

/-- Validate the domain labels, of which the first is numbered `index`. -/
def validateLabels : (index : ℕ) → List Bytes → Except String Unit
  | _, [] => .ok ()
  | index, label :: labels => do
      validateDomainLabel label
      if index = 0 ∧ !(label.head?.any isAsciiAlphabetic) then
        .error "first segment must start with a letter"
      else validateLabels (index + 1) labels

/-- Validate the name. -/
def validateName (name : Bytes) : Except String Unit :=
  match name with
  | [] => .error "name segment must be 1-63 characters"
  | first :: rest =>
      if 63 < name.length then .error "name segment must be 1-63 characters"
      else if !isAsciiAlphabetic first then .error "name segment must start with a letter"
      else if !rest.all isAsciiAlphanumeric then .error "name segment must be alphanumeric only"
      else .ok ()

/-- Validate an NSID. The result is the position of the last dot. -/
def validate (raw : Bytes) : Except String ℕ :=
  if raw = [] then .error "empty"
  else if 317 < raw.length then .error "too long"
  else do
    let segments := raw.splitOn (char '.')
    validateLabels 0 segments.dropLast
    if segments.length < 3 then .error "must have at least 3 segments"
    else do
      let name := segments.getLastD []
      validateName name
      .ok (raw.length - name.length - 1)

/-! ### Characters -/

theorem lt_of_isAlphanumericOrHyphen (b : UInt8) (h : isAlphanumericOrHyphen b = true) :
  b < 0x80
  := by
  rcases Bool.or_eq_true_iff.mp h with h | h
  · exact lt_of_isAsciiAlphanumeric h
  · rw [beq_iff_eq] at h
    rw [h]
    decide

theorem isAlphanumericOrHyphen_toAsciiLowercase (b : UInt8) :
  isAlphanumericOrHyphen (toAsciiLowercase b) = isAlphanumericOrHyphen b
  := by
  rw [isAlphanumericOrHyphen, isAsciiAlphanumeric_toAsciiLowercase, isAlphanumericOrHyphen,
    Bool.eq_iff_iff, Bool.or_eq_true, Bool.or_eq_true, beq_iff_eq, beq_iff_eq,
    toAsciiLowercase_eq_iff (by decide)]

theorem isAlphanumericOrHyphen_of_isAsciiAlphanumeric {b : UInt8}
    (h : isAsciiAlphanumeric b = true) :
  isAlphanumericOrHyphen b = true
  := by
  rw [isAlphanumericOrHyphen, h, Bool.true_or]

variable {index lastDot : ℕ} {raw name label authority authority' : Bytes}

/-- A domain label is letters, digits and hyphens. -/
theorem chars_of_validateDomainLabel (h : validateDomainLabel label = .ok ()) :
  ∀ b ∈ label, isAlphanumericOrHyphen b = true
  := by
  unfold validateDomainLabel at h
  split at h
  · cases h
  · rename_i first rest
    split_ifs at h with hlen hfirst hlast hinner
    rw [Bool.not_eq_true, Bool.not_eq_false'] at hfirst hlast hinner
    rw [List.forall_mem_cons]
    refine ⟨isAlphanumericOrHyphen_of_isAsciiAlphanumeric hfirst, ?_⟩
    cases rest using List.reverseRecOn with
    | nil => nofun
    | append_singleton rest last =>
        rw [List.dropLast_concat] at hinner
        intro b hb
        rcases List.mem_append.mp hb with hb | hb
        · exact List.all_eq_true.mp hinner b hb
        · rw [List.mem_singleton.mp hb]
          apply isAlphanumericOrHyphen_of_isAsciiAlphanumeric
          rw [List.getLastD_cons] at hlast
          simpa using hlast

theorem chars_of_validateLabels {labels : List Bytes} (h : validateLabels index labels = .ok ()) :
  ∀ label ∈ labels, ∀ b ∈ label, isAlphanumericOrHyphen b = true
  := by
  induction labels generalizing index with
  | nil => nofun
  | cons label labels ih =>
      obtain ⟨_, hlabel, h⟩ := Except.bind_eq_ok.mp h
      split at h
      · cases h
      · rw [List.forall_mem_cons]
        exact ⟨chars_of_validateDomainLabel hlabel, ih h⟩

/-- A name is letters and digits. -/
theorem chars_of_validateName (h : validateName name = .ok ()) :
  ∀ b ∈ name, isAsciiAlphanumeric b = true
  := by
  unfold validateName at h
  split at h
  · cases h
  · split_ifs at h with hlen hfirst hrest
    rw [Bool.not_eq_true, Bool.not_eq_false'] at hfirst hrest
    rw [List.forall_mem_cons]
    constructor
    · rw [isAsciiAlphanumeric, hfirst, Bool.true_or]
    · exact List.all_eq_true.mp hrest

/-- A valid NSID is letters, digits, hyphens and dots. -/
theorem chars_of_validate (h : validate raw = .ok lastDot) :
  ∀ b ∈ raw, isAlphanumericOrHyphen b = true ∨ b = char '.'
  := by
  unfold validate at h
  split at h
  · cases h
  · split at h
    · cases h
    · obtain ⟨_, hlabels, h⟩ := Except.bind_eq_ok.mp h
      split at h
      · cases h
      · obtain ⟨_, hname, -⟩ := Except.bind_eq_ok.mp h
        have hne := List.splitOn_ne_nil (char '.') raw
        have hsegments : ∀ segment ∈ raw.splitOn (char '.'), ∀ b ∈ segment,
            isAlphanumericOrHyphen b = true := by
          intro segment hsegment b hb
          rw [← List.dropLast_append_getLast hne] at hsegment
          rcases List.mem_append.mp hsegment with hsegment | hsegment
          · exact chars_of_validateLabels hlabels segment hsegment b hb
          · rw [List.mem_singleton.mp hsegment] at hb
            rw [List.getLastD_eq_getLast?, List.getLast?_eq_some_getLast hne] at hname
            apply isAlphanumericOrHyphen_of_isAsciiAlphanumeric
            exact chars_of_validateName hname b hb
        intro b hb
        rw [← @List.intercalate_splitOn _ raw _ _ (char '.')] at hb
        rcases mem_join hb with rfl | ⟨segment, hsegment, hb⟩
        · exact .inr rfl
        · exact .inl (hsegments segment hsegment b hb)

/-- A valid NSID is an ASCII text. -/
theorem isAscii_of_validate (h : validate raw = .ok lastDot) :
  IsAscii raw
  := by
  intro b hb
  rcases chars_of_validate h b hb with hb | rfl
  · exact lt_of_isAlphanumericOrHyphen b hb
  · decide

/-- A valid NSID is an authority and a name, with a dot between them at the given position. -/
theorem split_of_validate (h : validate raw = .ok lastDot) :
  ∃ authority name, raw = authority ++ char '.' :: name ∧ authority.length = lastDot
    ∧ char '.' ∉ name
  := by
  unfold validate at h
  split at h
  · cases h
  · split at h
    · cases h
    · obtain ⟨_, -, h⟩ := Except.bind_eq_ok.mp h
      split at h
      · cases h
      · rename_i hlen
        obtain ⟨_, -, h⟩ := Except.bind_eq_ok.mp h
        have hjoin : join (char '.') (raw.splitOn (char '.')) = raw := by
          rw [join, List.intercalate_splitOn]
        have hmem : ∀ name ∈ raw.splitOn (char '.'), char '.' ∉ name := fun _ =>
          not_mem_of_mem_splitOn
        generalize raw.splitOn (char '.') = segments at hlen h hjoin hmem
        cases segments using List.reverseRecOn with
        | nil => exact absurd (by decide) hlen
        | append_singleton segments name =>
            have hne : segments ≠ [] := by
              rintro rfl
              simp at hlen
            rw [join_concat _ hne] at hjoin
            refine ⟨join (char '.') segments, name, hjoin.symm, ?_, hmem name (by simp)⟩
            rw [← Except.ok.inj h, ← hjoin, List.getLastD_concat, List.length_append, List.length_cons]
            omega

/-! ### Case -/

theorem toAsciiLowercase_eq_dot (b : UInt8) :
  toAsciiLowercase b = char '.' ↔ b = char '.'
  := toAsciiLowercase_eq_iff (by decide)

theorem validateDomainLabel_map (label : Bytes) :
  validateDomainLabel (label.map toAsciiLowercase) = validateDomainLabel label
  := by
  cases label with
  | nil => rfl
  | cons first rest =>
      have hlast : ((first :: rest).map toAsciiLowercase).getLastD (toAsciiLowercase first)
          = toAsciiLowercase ((first :: rest).getLastD first) := by
        cases rest using List.reverseRecOn with
        | nil => rfl
        | append_singleton rest last =>
            rw [List.map_cons, List.map_append, List.getLastD_cons, List.getLastD_cons]
            exact (List.getLastD_concat ..).trans (congrArg _ (List.getLastD_concat ..).symm)
      have hinner : ((rest.map toAsciiLowercase).dropLast.all isAlphanumericOrHyphen)
          = rest.dropLast.all isAlphanumericOrHyphen := by
        rw [← List.map_dropLast, List.all_map]
        exact congrArg rest.dropLast.all (funext isAlphanumericOrHyphen_toAsciiLowercase)
      rw [List.map_cons] at hlast ⊢
      rw [validateDomainLabel, validateDomainLabel, hlast, hinner, List.length_cons, List.length_map,
        isAsciiAlphanumeric_toAsciiLowercase, isAsciiAlphanumeric_toAsciiLowercase]
      rfl

theorem validateLabels_map (index : ℕ) (labels : List Bytes) :
  validateLabels index (labels.map (List.map toAsciiLowercase)) = validateLabels index labels
  := by
  induction labels generalizing index with
  | nil => rfl
  | cons label labels ih =>
      have hhead : (label.map toAsciiLowercase).head?.any isAsciiAlphabetic
          = label.head?.any isAsciiAlphabetic := by
        rw [List.head?_map]
        cases label.head? with
        | none => rfl
        | some b => exact isAsciiAlphabetic_toAsciiLowercase b
      rw [List.map_cons, validateLabels, validateLabels, validateDomainLabel_map, hhead, ih]

/-- The case of the authority makes no difference to whether an NSID is valid. -/
theorem validate_congr
    (h : authority.map toAsciiLowercase = authority'.map toAsciiLowercase) (hname : char '.' ∉ name) :
  validate (authority ++ char '.' :: name) = validate (authority' ++ char '.' :: name)
  := by
  have hlength : authority.length = authority'.length := by
    simpa using congrArg List.length h
  have hlabels : validateLabels 0 (authority.splitOn (char '.'))
      = validateLabels 0 (authority'.splitOn (char '.')) := by
    rw [← validateLabels_map, ← validateLabels_map 0 (authority'.splitOn _),
      ← splitOn_map toAsciiLowercase_eq_dot, ← splitOn_map toAsciiLowercase_eq_dot, h]
  have hcount : (authority.splitOn (char '.')).length = (authority'.splitOn (char '.')).length := by
    have hmap := congrArg (fun bs => (bs.splitOn (char '.')).length) h
    simpa only [splitOn_map toAsciiLowercase_eq_dot, List.length_map] using hmap
  have hne : ∀ bs : Bytes, bs ++ char '.' :: name ≠ [] := by simp
  unfold validate
  rw [if_neg (hne authority), if_neg (hne authority'), List.splitOn_append_cons_self,
    List.splitOn_append_cons_self, List.splitOn_eq_singleton hname]
  simp only [List.dropLast_concat, List.getLastD_concat, List.length_append, hlabels, hcount, hlength]

/-- An NSID with its authority in lower case is valid as it was before. -/
theorem validate_lowercasePrefix (h : validate raw = .ok lastDot) :
  validate (lowercasePrefix lastDot raw) = .ok lastDot
  := by
  obtain ⟨authority, name, rfl, rfl, hname⟩ := split_of_validate h
  rw [← h, lowercasePrefix, List.take_left, List.drop_left]
  exact validate_congr (map_toAsciiLowercase_idem authority) hname

end Shrike.Syntax.Nsid
