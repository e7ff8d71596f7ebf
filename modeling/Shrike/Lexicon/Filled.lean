import Shrike.Lexicon.Filling

/-!
# Filled values

A value that has been filled is not changed by filling it again, and it is as valid as it was.
-/

namespace Shrike.Lexicon

open Cbor Bytes

variable {catalog : Catalog}

/-! ### Filling again -/

/-- A member that has been filled is not changed by filling it again, if its value is not. -/
theorem filledMember_filledMember {nsid : Bytes} {field : FieldSchema} {depth : ℕ}
    {member : Option (Json Number)}
    (h : ∀ child ∈ member,
      applyDefaultsInner catalog (applyDefaultsInner catalog child nsid field depth) nsid field depth
        = applyDefaultsInner catalog child nsid field depth) :
  filledMember catalog nsid field depth (filledMember catalog nsid field depth member)
    = filledMember catalog nsid field depth member
  := by
  cases member with
  | some child => exact congrArg some (h child rfl)
  | none =>
      rw [filledMember]
      cases hdefault : field.defaultValue with
      | none => exact hdefault
      | some default => exact congrArg some (fill_default hdefault nsid depth)

section

variable [DataEncoding] [Segmentation]

/-- Filling a value again changes nothing. -/
theorem fill_fill (hcatalog : catalog.WellFormed) (value : Json Number) :
  ∀ {nsid : Bytes} {field : FieldSchema}, field.WellFormed (DefaultHolds catalog nsid) →
    ∀ depth : ℕ,
      applyDefaultsInner catalog (applyDefaultsInner catalog value nsid field depth) nsid field depth
        = applyDefaultsInner catalog value nsid field depth
  := by
  induction value using Json.induction_children with
  | h value ih =>
      intro nsid field hfield depth
      by_cases hdepth : depth ≤ maxDefaultRefDepth
      · cases value with
        | object map =>
            rw [fill_object hdepth]
            cases hfound : objectOf catalog nsid map field with
            | none =>
                rw [Option.elim_none, fill_object hdepth, hfound, Option.elim_none]
            | some found =>
                have hobj := objectOf_wellFormed hcatalog hfield hfound
                rw [Option.elim_some, fill_object hdepth,
                  objectOf_fillMembers hfound hobj.nodup, Option.elim_some]
                congr 1
                apply fillMembers_eq_self
                intro property hproperty
                rw [lookup_fillMembers hobj.nodup hproperty]
                apply filledMember_filledMember
                intro child hchild
                apply ih child (Json.mem_children_of_lookup hchild) (hobj.property hproperty)
        | array elems =>
            by_cases harray : ∃ items minLength maxLength, field = .array items minLength maxLength
            · obtain ⟨items, minLength, maxLength, rfl⟩ := harray
              rw [fill_array hdepth, fill_array hdepth, List.map_map]
              congr 1
              apply List.map_congr_left
              intro elem helem
              apply ih elem helem
              rw [FieldSchema.WellFormed] at hfield
              exact hfield
            · have hfield : ∀ items minLength maxLength,
                  field ≠ .array items minLength maxLength := by
                intro items minLength maxLength heq
                exact harray ⟨items, minLength, maxLength, heq⟩
              rw [fill_array_other hfield, fill_array_other hfield]
        | null => rw [fill_null, fill_null]
        | bool b => rw [fill_bool, fill_bool]
        | number n => rw [fill_number, fill_number]
        | string s => rw [fill_string, fill_string]
      · rw [fill_of_deep (not_le.mp hdepth)]

end

/-! ### The validity of an object -/

theorem finalize_eq_ok {errors : List ValidationError} :
  finalize errors = .ok () ↔ errors = []
  := by
  rcases errors with _ | ⟨e, _ | ⟨e', errors⟩⟩
  · exact ⟨fun _ => rfl, fun _ => rfl⟩
  · constructor <;> nofun
  · constructor <;> nofun

section

variable {within : Json Number → Checker} {nsid : Bytes} {path : Path} {obj : ObjectDef}
  {map : List (Bytes × Json Number)}

theorem fieldErrs_eq_nil {kinds : List ValidationErrorKind} :
  fieldErrs path kinds = [] ↔ kinds = []
  := List.map_eq_nil_iff

/-- An object is valid if its required members are there and its properties are valid. -/
theorem validateObject_eq_nil :
  validateObject within nsid path obj (.object map) = []
    ↔ (∀ req ∈ obj.required, validateRequired path obj map req = [])
      ∧ ∀ property ∈ obj.properties, validateProperty within nsid path obj map property = []
  := by
  rw [validateObject, List.append_eq_nil_iff, List.flatMap_eq_nil_iff, List.flatMap_eq_nil_iff]

/-- An array is valid if its length and its items are. -/
theorem validateArray_eq_nil {items : FieldSchema} {minLength maxLength : Option ℕ}
    {elems : List (Json Number)} :
  validateArray within nsid path items minLength maxLength (.array elems) = []
    ↔ checkLength minLength maxLength elems.length = []
      ∧ ∀ elem ∈ elems.zipIdx, within elem.1 nsid (.index path elem.2) items false = []
  := by
  rw [validateArray, List.append_eq_nil_iff, fieldErrs_eq_nil, List.flatMap_eq_nil_iff]

theorem validateRequired_of_present {req : Bytes} {child : Json Number}
    (h : map.lookup req = some child) (hne : child ≠ .null) :
  validateRequired path obj map req = []
  := by
  rw [validateRequired, h]
  cases child with
  | null => exact absurd rfl hne
  | _ => rfl

end

section

variable [DataEncoding]

theorem validateTarget_object {within : Json Number → Checker} {target : Bytes × Bytes}
    {obj : ObjectDef} (h : catalog.objectDef target = some obj) (kind : String) (path : Path)
    (value : Json Number) :
  validateTarget within catalog kind path target value
    = validateObject within target.1 path obj value
  := by
  rw [Catalog.objectDef, Catalog.find] at h
  rw [validateTarget]
  cases hget : catalog.get target.1 with
  | none =>
      rw [hget] at h
      cases h
  | some defs =>
      rw [hget, Option.bind_some] at h
      dsimp only
      cases hdef : defs.lookup target.2 with
      | none =>
          rw [hdef] at h
          cases h
      | some definition =>
          rw [hdef] at h
          cases definition with
          | object obj' =>
              cases h
              rfl
          | record record =>
              cases h
              rfl
          | _ => cases h

variable [Segmentation]

/-- An object is validated by what it is by the schema of the field, if an object of its type is
valid. -/
theorem validateField_object {nsid : Bytes} {path : Path} {field : FieldSchema} {nullable : Bool}
    {map map' : List (Bytes × Json Number)} {found : ℕ × Bytes × ObjectDef}
    (h : objectOf catalog nsid map field = some found)
    (hvalid : validateField catalog (.object map) nsid path field nullable = [])
    (htype : ∀ refs closed, field = .union refs closed →
      map'.lookup (ascii "$type") = map.lookup (ascii "$type")) :
  validateField catalog (.object map') nsid path field nullable
    = validateObject (validateField catalog) found.2.1 path found.2.2 (.object map')
  := by
  rw [validateField_eq] at hvalid ⊢
  cases field with
  | object obj =>
      cases h
      rfl
  | ref reference =>
      obtain ⟨obj, hobj, rfl⟩ := Option.map_eq_some_iff.mp h
      exact validateTarget_object hobj _ _ _
  | union refs closed =>
      obtain ⟨typeName, target, hname, htarget, h⟩ := type_of_union h
      obtain ⟨obj, hobj, rfl⟩ := Option.map_eq_some_iff.mp h
      rw [validateStep, validatePresent, validateUnion, hname] at hvalid
      · rw [validateStep, validatePresent, validateUnion, htype refs closed rfl, hname]
        · dsimp only at hvalid ⊢
          by_cases hcount : 1 < typeName.count (char '#')
          · rw [if_pos hcount] at hvalid
            cases hvalid
          · rw [if_neg hcount, htarget]
            exact validateTarget_object hobj _ _ _
        · intro heq
          cases heq
      · intro heq
        cases heq
  | _ => cases h

/-- A declared default is valid wherever it is put. -/
theorem validateField_default {nsid : Bytes} {field : FieldSchema}
    (hholds : DefaultHolds catalog nsid field) {default : Json Number}
    (h : field.defaultValue = some default) (path : Path) (nullable : Bool) :
  validateField catalog default nsid path field nullable = []
  := by
  have hroot := finalize_eq_ok.mp (hholds default h)
  -- The ways in which a default fails its field do not depend on where it is.
  have hkinds : ∀ {kinds : List ValidationErrorKind},
      (∀ path nullable, validateField catalog default nsid path field nullable
        = fieldErrs path kinds) →
      validateField catalog default nsid path field nullable = [] := by
    intro kinds hsame
    rw [hsame] at hroot ⊢
    exact fieldErrs_eq_nil.mpr (fieldErrs_eq_nil.mp hroot)
  cases field with
  | string c d =>
      obtain ⟨s, -, rfl⟩ := Option.map_eq_some_iff.mp h
      apply @hkinds (validateString c (.string s))
      intro path nullable
      rw [validateField_eq]
      rfl
  | integer c d =>
      obtain ⟨n, -, rfl⟩ := Option.map_eq_some_iff.mp h
      apply @hkinds (validateInteger c (.number n.number))
      intro path nullable
      rw [validateField_eq]
      rfl
  | boolean d constVal =>
      obtain ⟨b, -, rfl⟩ := Option.map_eq_some_iff.mp h
      apply @hkinds (validateBoolean constVal (.bool b))
      intro path nullable
      rw [validateField_eq]
      rfl
  | _ => cases h

end

/-! ### Validity after filling -/

theorem FieldSchema.defaultValue_ne_null {field : FieldSchema} {default : Json Number}
    (h : field.defaultValue = some default) :
  default ≠ .null
  := by
  rintro rfl
  cases field with
  | string c d => cases d <;> cases h
  | integer c d => cases d <;> cases h
  | boolean d c => cases d <;> cases h
  | _ => cases h

/-- What is not null is not null after filling. -/
theorem fill_ne_null {value : Json Number} (h : value ≠ .null) (nsid : Bytes)
    (field : FieldSchema) (depth : ℕ) :
  applyDefaultsInner catalog value nsid field depth ≠ .null
  := by
  by_cases hdepth : depth ≤ maxDefaultRefDepth
  · cases value with
    | null => exact absurd rfl h
    | bool b =>
        rw [fill_bool]
        nofun
    | number n =>
        rw [fill_number]
        nofun
    | string s =>
        rw [fill_string]
        nofun
    | object map =>
        rw [fill_object hdepth]
        cases objectOf catalog nsid map field <;> nofun
    | array elems =>
        by_cases harray : ∃ items minLength maxLength, field = .array items minLength maxLength
        · obtain ⟨items, minLength, maxLength, rfl⟩ := harray
          rw [fill_array hdepth]
          nofun
        · rw [fill_array_other fun items minLength maxLength heq =>
            harray ⟨items, minLength, maxLength, heq⟩]
          nofun
  · rw [fill_of_deep (not_le.mp hdepth)]
    exact h

/-- A required member is there after filling, if it was or has a default. -/
theorem validateRequired_fillMembers {path : Path} {obj : ObjectDef}
    (hnodup : (obj.properties.map Prod.fst).Nodup) {map : List (Bytes × Json Number)} {req : Bytes}
    (h : validateRequired path obj map req = []) (nsid : Bytes) (depth : ℕ) :
  validateRequired path obj (fillMembers catalog nsid obj depth map) req = []
  := by
  by_cases hmem : req ∈ obj.properties.map Prod.fst
  · obtain ⟨property, hproperty, rfl⟩ := List.mem_map.mp hmem
    have hlookup := @lookup_fillMembers catalog _ _ hnodup hproperty nsid depth map
    cases hmember : map.lookup property.1 with
    | none =>
        rw [hmember, filledMember] at hlookup
        cases hdefault : property.2.defaultValue with
        | none =>
            rw [hdefault] at hlookup
            rw [validateRequired, hmember] at h
            rw [validateRequired, hlookup]
            exact h
        | some default =>
            rw [hdefault] at hlookup
            exact validateRequired_of_present hlookup (FieldSchema.defaultValue_ne_null hdefault)
    | some child =>
        rw [hmember, filledMember] at hlookup
        by_cases hnull : child = .null
        · obtain rfl := hnull
          rw [fill_null] at hlookup
          rw [validateRequired, hmember] at h
          rw [validateRequired, hlookup]
          exact h
        · exact validateRequired_of_present hlookup (fill_ne_null hnull _ _ _)
  · have hlookup := @lookup_fillMembers_of_not_mem catalog _ _ hmem nsid depth map
    rw [validateRequired] at h ⊢
    rw [hlookup]
    exact h

section

variable [DataEncoding] [Segmentation]

/-- A valid value is valid after filling. -/
theorem validateField_fill (hcatalog : catalog.WellFormed) (value : Json Number) :
  ∀ {nsid : Bytes} {path : Path} {field : FieldSchema} {nullable : Bool},
    field.WellFormed (DefaultHolds catalog nsid) →
    validateField catalog value nsid path field nullable = [] → ∀ depth : ℕ,
      validateField catalog (applyDefaultsInner catalog value nsid field depth) nsid path field
        nullable = []
  := by
  induction value using Json.induction_children with
  | h value ih =>
      intro nsid path field nullable hfield hvalid depth
      by_cases hdepth : depth ≤ maxDefaultRefDepth
      · cases value with
        | object map =>
            rw [fill_object hdepth]
            cases hfound : objectOf catalog nsid map field with
            | none =>
                rw [Option.elim_none]
                exact hvalid
            | some found =>
                have hobj := objectOf_wellFormed hcatalog hfield hfound
                have hvalid' := validateField_object hfound hvalid (fun _ _ _ => rfl)
                rw [hvalid, eq_comm, validateObject_eq_nil] at hvalid'
                obtain ⟨hrequired, hproperties⟩ := hvalid'
                rw [Option.elim_some, validateField_object hfound hvalid, validateObject_eq_nil]
                · constructor
                  · intro req hreq
                    apply validateRequired_fillMembers hobj.nodup (hrequired req hreq)
                  · intro property hproperty
                    have hchild := hproperties property hproperty
                    rw [validateProperty] at hchild ⊢
                    rw [lookup_fillMembers hobj.nodup hproperty]
                    cases hmember : map.lookup property.1 with
                    | none =>
                        rw [filledMember]
                        cases hdefault : property.2.defaultValue with
                        | none => rfl
                        | some default =>
                            apply validateField_default _ hdefault
                            apply (hobj.property hproperty).default
                            rw [hdefault]
                            apply Option.some_ne_none
                    | some child =>
                        rw [hmember] at hchild
                        apply ih child (Json.mem_children_of_lookup hmember)
                          (hobj.property hproperty) hchild
                · rintro refs closed rfl
                  obtain ⟨typeName, target, htype, -⟩ := type_of_union hfound
                  rw [lookup_type_fillMembers hobj.nodup htype, htype]
        | array elems =>
            by_cases harray : ∃ items minLength maxLength, field = .array items minLength maxLength
            · obtain ⟨items, minLength, maxLength, rfl⟩ := harray
              rw [validateField_eq] at hvalid
              rw [fill_array hdepth, validateField_eq]
              obtain ⟨hlength, helems⟩ := validateArray_eq_nil.mp hvalid
              apply validateArray_eq_nil.mpr
              rw [List.length_map]
              constructor
              · exact hlength
              · intro elem helem
                rw [List.zipIdx_map] at helem
                obtain ⟨elem', helem', rfl⟩ := List.mem_map.mp helem
                rw [FieldSchema.WellFormed] at hfield
                apply ih elem'.1 (List.fst_mem_of_mem_zipIdx helem') hfield (helems elem' helem')
            · rw [fill_array_other fun items minLength maxLength heq =>
                harray ⟨items, minLength, maxLength, heq⟩]
              exact hvalid
        | null =>
            rw [fill_null]
            exact hvalid
        | bool b =>
            rw [fill_bool]
            exact hvalid
        | number n =>
            rw [fill_number]
            exact hvalid
        | string s =>
            rw [fill_string]
            exact hvalid
      · rw [fill_of_deep (not_le.mp hdepth)]
        exact hvalid

end

end Shrike.Lexicon
