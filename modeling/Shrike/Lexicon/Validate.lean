import Shrike.Lexicon.Constraints

/-!
# Validation of values

A JSON value is validated against the schema of a field, down through its objects, arrays,
references and unions. Validation gives the errors in the order in which they are found.
-/

namespace Shrike.Lexicon

open Cbor Bytes
open ValidationErrorKind

/-! ### Paths and errors -/

/-- Where a value is in the data. -/
inductive Path where
  | root (name : Bytes)
  | field (parent : Path) (name : Bytes)
  | index (parent : Path) (i : ℕ)

/-- The text of a path. -/
def Path.render : Path → Bytes
  | .root name => name
  | .field parent name =>
      let out := parent.render
      (if out = [] then [] else out ++ [char '.']) ++ name
  | .index parent i => parent.render ++ char '[' :: toText 10 i ++ [char ']']

/-- The ways in which a value is not valid. -/
inductive ValidationError where
  | field (path : Bytes) (kind : ValidationErrorKind)
  | schema (message : List Piece)
  | multiple (errors : List ValidationError)

/-- The error at a path. -/
def fieldErr (path : Path) (kind : ValidationErrorKind) : ValidationError :=
  .field path.render kind

/-- The errors at a path. -/
def fieldErrs (path : Path) (kinds : List ValidationErrorKind) : List ValidationError :=
  kinds.map (fieldErr path)

/-- The outcome of a validation. -/
def finalize : List ValidationError → Except ValidationError Unit
  | [] => .ok ()
  | [e] => .error e
  | errors => .error (.multiple errors)

/-- The check of a value: in the context of a schema, at a path, against the schema of a field, which
may be nullable. -/
abbrev Checker := Bytes → Path → FieldSchema → Bool → List ValidationError

section

variable (within : Json Number → Checker)

/-! ### Arrays and objects -/

/-- Validate an array. -/
def validateArray (nsid : Bytes) (path : Path) (items : FieldSchema)
    (minLength maxLength : Option ℕ) : Json Number → List ValidationError
  | .array arr =>
      fieldErrs path (checkLength minLength maxLength arr.length)
        ++ arr.zipIdx.flatMap fun elem => within elem.1 nsid (.index path elem.2) items false
  | value => fieldErrs path (mismatch "array" value)

/-- Check that a required member is there. If it is not, a default does. -/
def validateRequired (path : Path) (obj : ObjectDef) (map : List (Bytes × Json Number))
    (req : Bytes) : List ValidationError :=
  match map.lookup req with
  | none =>
      if ((obj.properties.lookup req).bind FieldSchema.defaultValue).isSome then []
      else [fieldErr (.field path req) required]
  | some .null =>
      if obj.nullable.contains req then []
      else [fieldErr (.field path req) (other [.text "required field is null"])]
  | some _ => []

/-- Validate a property, if it is there. -/
def validateProperty (nsid : Bytes) (path : Path) (obj : ObjectDef)
    (map : List (Bytes × Json Number)) (property : Bytes × FieldSchema) : List ValidationError :=
  match map.lookup property.1 with
  | some fieldVal =>
      within fieldVal nsid (.field path property.1) property.2 (obj.nullable.contains property.1)
  | none => []

/-- Validate an object. Members that are not declared are accepted. -/
def validateObject (nsid : Bytes) (path : Path) (obj : ObjectDef) :
    Json Number → List ValidationError
  | .object map =>
      obj.required.flatMap (validateRequired path obj map)
        ++ obj.properties.flatMap (validateProperty within nsid path obj map)
  | value => fieldErrs path (mismatch "object" value)

/-! ### References and unions -/

variable [DataEncoding] (catalog : Catalog)

/-- Validate a value against a definition. -/
def validateDef (nsid : Bytes) (path : Path) (value : Json Number) : Def → List ValidationError
  | .object obj => validateObject within nsid path obj value
  | .record record => validateObject within nsid path record value
  | .string | .token => fieldErrs path (validateAnyString value)
  | .boolean => fieldErrs path (validateBoolean none value)
  | .integer => fieldErrs path (validateInteger {} value)
  | .bytes => fieldErrs path (validateBytes none none value)
  | .array _ => fieldErrs path (validateAnyArray value)
  | .query | .procedure _ | .subscription =>
      [fieldErr path
        (other [.text "cannot validate against query/procedure/subscription def"])]
  | .unknown => [fieldErr path (other [.text "cannot validate against unknown def type"])]

/-- Validate a value against the definition that a reference of some kind is resolved to. -/
def validateTarget (kind : String) (path : Path) (target : Bytes × Bytes) (value : Json Number) :
    List ValidationError :=
  match catalog.get target.1 with
  | none =>
      [fieldErr path (other
        [.text "unresolved ", .text kind, .text ": schema ", .name target.1, .text " not found"])]
  | some defs =>
      match defs.lookup target.2 with
      | none =>
          [fieldErr path (other [.text "unresolved ", .text kind, .text ": def ", .name target.2,
            .text " not found in ", .name target.1])]
      | some definition => validateDef within target.1 path value definition

/-- Validate a value against a reference. -/
def validateRef (nsid : Bytes) (path : Path) (reference : Bytes) (value : Json Number) :
    List ValidationError :=
  validateTarget within catalog "ref" path (resolveRef nsid reference) value

/-- The target of a member of a union, if it is the type of the given name. The main definition of a
schema is named with it or without. -/
def unionRefMatch (nsid typeName reference : Bytes) : Option (Bytes × Bytes) :=
  let target := resolveRef nsid reference
  let type := (splitOnce (char '#') typeName).getD (typeName, ascii "main")
  if type = target then some target else none

/-- Validate a value against a union. A value of no member is accepted unless the union is
closed. -/
def validateUnion (nsid : Bytes) (path : Path) (refs : List Bytes) (closed : Bool) :
    Json Number → List ValidationError
  | .object map =>
      match map.lookup (ascii "$type") with
      | none => [fieldErr path (other [.text "union missing $type"])]
      | some (.string typeName) =>
          if 1 < typeName.count (char '#') then
            [fieldErr path (other
              [.text "union $type ", .quoted typeName, .text " has more than one #"])]
          else match refs.findSome? (unionRefMatch nsid typeName) with
            | some target =>
                validateTarget within catalog "union ref" path target (.object map)
            | none =>
                if closed then
                  [fieldErr path (other
                    [.text "union $type ", .quoted typeName, .text " not in closed union"])]
                else []
      | some _ => [fieldErr path (other [.text "union $type is not a string"])]
  | value => fieldErrs path (mismatch "union object" value)

/-! ### Fields -/

variable [Segmentation]

/-- Validate a value that is not null against the schema of a field. -/
def validatePresent (value : Json Number) (nsid : Bytes) (path : Path) :
    FieldSchema → List ValidationError
  | .string c _ => fieldErrs path (validateString c value)
  | .integer c _ => fieldErrs path (validateInteger c value)
  | .boolean _ constVal => fieldErrs path (validateBoolean constVal value)
  | .bytes minLength maxLength => fieldErrs path (validateBytes minLength maxLength value)
  | .cidLink => fieldErrs path (validateCidLink value)
  | .blob accept maxSize => fieldErrs path (validateBlob accept maxSize value)
  | .array items minLength maxLength => validateArray within nsid path items minLength maxLength value
  | .object obj => validateObject within nsid path obj value
  | .ref reference => validateRef within catalog nsid path reference value
  | .union refs closed => validateUnion within catalog nsid path refs (closed.getD false) value
  | .unknown => fieldErrs path (validateUnknown value)

/-- Validate a value against the schema of a field, where the values in it are validated by
`within`. -/
def validateStep (value : Json Number) (nsid : Bytes) (path : Path) (field : FieldSchema)
    (nullable : Bool) : List ValidationError :=
  match value with
  | .null =>
      if nullable then [] else [fieldErr path (other [.text "value is required (got null)"])]
  | value => validatePresent within catalog value nsid path field

end

section

variable [DataEncoding] [Segmentation] (catalog : Catalog)

/-- Validate a value against the schema of a field. -/
def validateField : Json Number → Checker := Json.fix fun within => validateStep within catalog

/-- Validate a value against the schema of a field, under the name of its root. -/
def validateValueAt (nsid root : Bytes) (field : FieldSchema) (value : Json Number) :
    Except ValidationError Unit :=
  finalize (validateField catalog value nsid (.root root) field false)

/-- Validate a single value against the schema of a field. -/
def validateValue (contextNsid : Bytes) (field : FieldSchema) (value : Json Number) :
    Except ValidationError Unit :=
  validateValueAt catalog contextNsid (ascii "value") field value

end

/-! ### Validation within a value -/

section

variable {within within' : Json Number → Checker} {value : Json Number}

theorem validateArray_congr (h : ∀ child ∈ value.children, within child = within' child)
    (nsid : Bytes) (path : Path) (items : FieldSchema) (minLength maxLength : Option ℕ) :
  validateArray within nsid path items minLength maxLength value
    = validateArray within' nsid path items minLength maxLength value
  := by
  cases value with
  | array arr =>
      rw [validateArray, validateArray]
      congr 1
      apply List.flatMap_congr
      intro elem helem
      rw [h elem.1 (List.fst_mem_of_mem_zipIdx helem)]
  | _ => rfl

theorem validateObject_congr (h : ∀ child ∈ value.children, within child = within' child)
    (nsid : Bytes) (path : Path) (obj : ObjectDef) :
  validateObject within nsid path obj value = validateObject within' nsid path obj value
  := by
  cases value with
  | object map =>
      rw [validateObject, validateObject]
      congr 1
      apply List.flatMap_congr
      intro property _
      rw [validateProperty, validateProperty]
      cases hchild : map.lookup property.1 with
      | none => rfl
      | some child =>
          dsimp only
          rw [h child (Json.mem_children_of_lookup hchild)]
  | _ => rfl

variable [DataEncoding] (catalog : Catalog)

theorem validateTarget_congr (h : ∀ child ∈ value.children, within child = within' child)
    (kind : String) (path : Path) (target : Bytes × Bytes) :
  validateTarget within catalog kind path target value
    = validateTarget within' catalog kind path target value
  := by
  rw [validateTarget, validateTarget]
  cases catalog.get target.1 with
  | none => rfl
  | some defs =>
      dsimp only
      cases defs.lookup target.2 with
      | none => rfl
      | some definition =>
          cases definition with
          | object obj => apply validateObject_congr h
          | record record => apply validateObject_congr h
          | _ => rfl

theorem validateUnion_congr (h : ∀ child ∈ value.children, within child = within' child)
    (nsid : Bytes) (path : Path) (refs : List Bytes) (closed : Bool) :
  validateUnion within catalog nsid path refs closed value
    = validateUnion within' catalog nsid path refs closed value
  := by
  cases value with
  | object map =>
      rw [validateUnion, validateUnion]
      split
      · rfl
      · rename_i typeName _
        cases refs.findSome? (unionRefMatch nsid typeName) with
        | none => rfl
        | some target =>
            dsimp only
            rw [validateTarget_congr catalog h]
      · rfl
  | _ => rfl

variable [Segmentation]

/-- Validation asks only for the items of an array and the members of an object. -/
theorem validateStep_local :
  Json.Local fun within : Json Number → Checker => validateStep within catalog
  := by
  intro within within' value h
  funext nsid path field nullable
  have hpresent : validatePresent within catalog value nsid path field
      = validatePresent within' catalog value nsid path field := by
    cases field with
    | array items minLength maxLength => apply validateArray_congr h
    | object obj => apply validateObject_congr h
    | ref reference => apply validateTarget_congr catalog h
    | union refs closed => apply validateUnion_congr catalog h
    | _ => rfl
  cases value with
  | null => rfl
  | _ => exact hpresent

/-- Validation is its step, with itself for the values within. -/
theorem validateField_eq (value : Json Number) :
  validateField catalog value = validateStep (validateField catalog) catalog value
  := by
  apply Json.fix_eq (validateStep_local catalog)

end

end Shrike.Lexicon
