import Shrike.Lexicon.Validate

/-!
# What filling does

Filling in defaults, described by the object that the schema of a field stands for and by what
becomes of each member of it.
-/

/-!
## Filling in defaults

After a value has been validated, the properties of its objects that are not there and declare a
default are given it, down through objects, arrays, references and the matched members of unions.
-/

namespace Shrike.Lexicon

open Cbor Bytes

/-! ### Filling -/

/-- How many references and unions are followed. -/
def maxDefaultRefDepth : ℕ := 64

/-- The filling of a value: in the context of a schema, by the schema of a field, behind a number of
references and unions. -/
abbrev Filler := Bytes → FieldSchema → ℕ → Json Number

section

variable (within : Json Number → Filler)

/-- Fill a property, where `map` is the object as it came and `filled` as it is so far. The names of
properties are distinct, so what is under a name is what the object came with. -/
def applyProperty (nsid : Bytes) (depth : ℕ) (map filled : List (Bytes × Json Number))
    (property : Bytes × FieldSchema) : List (Bytes × Json Number) :=
  match map.lookup property.1 with
  | some .null => filled
  | some child => filled.replaceEntry property.1 (within child nsid property.2 depth)
  | none => property.2.defaultValue.elim filled fun default =>
      List.setEntry property.1 default filled

/-- Fill the properties of an object. -/
def applyObjectDefaults (nsid : Bytes) (obj : ObjectDef) (depth : ℕ) : Json Number → Json Number
  | .object map => .object (obj.properties.foldl (applyProperty within nsid depth map) map)
  | value => value

variable (catalog : Catalog)

/-- Fill a value by a definition. -/
def applyDefDefaults (target : Bytes × Bytes) (value : Json Number) (depth : ℕ) : Json Number :=
  match catalog.find target.1 target.2 with
  | some (.object obj) => applyObjectDefaults within target.1 obj depth value
  | some (.record record) => applyObjectDefaults within target.1 record depth value
  | _ => value

/-- Fill the items of an array. -/
def applyArrayDefaults (nsid : Bytes) (items : FieldSchema) (depth : ℕ) :
    Json Number → Json Number
  | .array elems => .array (elems.map fun elem => within elem nsid items depth)
  | value => value

/-- Fill a value by a union: by the member that its type names. -/
def applyUnionDefaults (nsid : Bytes) (refs : List Bytes) (value : Json Number) (depth : ℕ) :
    Json Number :=
  match (value.get (ascii "$type")).bind Json.asStr with
  | none => value
  | some typeName =>
      match refs.findSome? (unionRefMatch nsid typeName) with
      | none => value
      | some target => applyDefDefaults within catalog target value (depth + 1)

/-- Fill a value by the schema of a field, whatever the number of references. -/
def applyFieldDefaults (value : Json Number) (nsid : Bytes) (depth : ℕ) : FieldSchema → Json Number
  | .object obj => applyObjectDefaults within nsid obj depth value
  | .array items _ _ => applyArrayDefaults within nsid items depth value
  | .ref reference =>
      applyDefDefaults within catalog (resolveRef nsid reference) value (depth + 1)
  | .union refs _ => applyUnionDefaults within catalog nsid refs value depth
  | _ => value

/-- Fill a value by the schema of a field, where the values in it are filled by `within`. -/
def applyDefaultsStep (value : Json Number) (nsid : Bytes) (field : FieldSchema) (depth : ℕ) :
    Json Number :=
  if maxDefaultRefDepth < depth then value
  else applyFieldDefaults within catalog value nsid depth field

end

section

variable (catalog : Catalog)

instance : Inhabited (Filler) := ⟨fun _ _ _ => .null⟩

/-- Fill a value by the schema of a field, behind a number of references and unions. -/
def applyDefaultsInner : Json Number → Filler :=
  Json.fix fun within => applyDefaultsStep within catalog

/-- Fill a value by the schema of a field. -/
def applyDefaults (nsid : Bytes) (field : FieldSchema) (value : Json Number) : Json Number :=
  applyDefaultsInner catalog value nsid field 0

/-- The definition of a method. -/
def methodDef (nsid : Bytes) : Except ValidationError Def :=
  match catalog.mainDef nsid with
  | some definition => .ok definition
  | none => .error (.schema [.text "no lexicon for ", .name nsid])

/-- The error of a method of another kind. -/
def notAMethod (nsid : Bytes) : ValidationError :=
  .schema [.text "lexicon ", .name nsid, .text " is not a matching XRPC method"]

variable [DataEncoding] [Segmentation]

/-- Validate the input of a procedure, and fill in the defaults. -/
def validateInput (nsid : Bytes) (value : Json Number) : Except ValidationError (Json Number) := do
  match ← methodDef catalog nsid with
  | .procedure none => .ok value
  | .procedure (some schema) =>
      validateValueAt catalog nsid (ascii "input") schema value
      .ok (applyDefaults catalog nsid schema value)
  | _ => .error (notAMethod nsid)

end

/-! ### Filling within a value -/

section

variable {within within' : Json Number → Filler} {value : Json Number}

theorem applyObjectDefaults_congr (h : ∀ child ∈ value.children, within child = within' child)
    (nsid : Bytes) (obj : ObjectDef) (depth : ℕ) :
  applyObjectDefaults within nsid obj depth value = applyObjectDefaults within' nsid obj depth value
  := by
  cases value with
  | object map =>
      have hproperty : applyProperty within nsid depth map
          = applyProperty within' nsid depth map := by
        funext filled property
        rw [applyProperty, applyProperty]
        cases hchild : map.lookup property.1 with
        | none => rfl
        | some child =>
            have heq := h child (Json.mem_children_of_lookup hchild)
            cases child with
            | null => rfl
            | _ => exact congrArg (fun f : Filler => filled.replaceEntry _ (f _ _ _)) heq
      rw [applyObjectDefaults, applyObjectDefaults, hproperty]
  | _ => rfl

theorem applyArrayDefaults_congr (h : ∀ child ∈ value.children, within child = within' child)
    (nsid : Bytes) (items : FieldSchema) (depth : ℕ) :
  applyArrayDefaults within nsid items depth value
    = applyArrayDefaults within' nsid items depth value
  := by
  cases value with
  | array elems =>
      rw [applyArrayDefaults, applyArrayDefaults]
      congr 1
      apply List.map_congr_left
      intro elem helem
      rw [h elem helem]
  | _ => rfl

variable (catalog : Catalog)

theorem applyDefDefaults_congr (h : ∀ child ∈ value.children, within child = within' child)
    (target : Bytes × Bytes) (depth : ℕ) :
  applyDefDefaults within catalog target value depth
    = applyDefDefaults within' catalog target value depth
  := by
  rw [applyDefDefaults, applyDefDefaults]
  cases catalog.find target.1 target.2 with
  | none => rfl
  | some definition =>
      cases definition with
      | object obj => apply applyObjectDefaults_congr h
      | record record => apply applyObjectDefaults_congr h
      | _ => rfl

theorem applyUnionDefaults_congr (h : ∀ child ∈ value.children, within child = within' child)
    (nsid : Bytes) (refs : List Bytes) (depth : ℕ) :
  applyUnionDefaults within catalog nsid refs value depth
    = applyUnionDefaults within' catalog nsid refs value depth
  := by
  rw [applyUnionDefaults, applyUnionDefaults]
  cases (value.get (ascii "$type")).bind Json.asStr with
  | none => rfl
  | some typeName =>
      dsimp only
      cases refs.findSome? (unionRefMatch nsid typeName) with
      | none => rfl
      | some target => apply applyDefDefaults_congr catalog h

/-- Filling asks only for the items of an array and the members of an object. -/
theorem applyDefaultsStep_local :
  Json.Local fun within : Json Number → Filler => applyDefaultsStep within catalog
  := by
  intro within within' value h
  funext nsid field depth
  show applyDefaultsStep within catalog value nsid field depth
    = applyDefaultsStep within' catalog value nsid field depth
  rw [applyDefaultsStep, applyDefaultsStep]
  congr 1
  cases field with
  | array items minLength maxLength => apply applyArrayDefaults_congr h
  | object obj => apply applyObjectDefaults_congr h
  | ref reference => apply applyDefDefaults_congr catalog h
  | union refs closed => apply applyUnionDefaults_congr catalog h
  | _ => rfl

/-- Filling is its step, with itself for the values within. -/
theorem applyDefaultsInner_eq (value : Json Number) :
  applyDefaultsInner catalog value = applyDefaultsStep (applyDefaultsInner catalog) catalog value
  := by
  apply Json.fix_eq (applyDefaultsStep_local catalog)

end

end Shrike.Lexicon

/-! ## What filling does -/

namespace Shrike.Lexicon

open Cbor Bytes

/-! ### Well-formed schemas -/

mutual

/-- A schema of a field is well-formed if the properties of objects in it have distinct names, and
the other schemas in it satisfy a condition. -/
def FieldSchema.WellFormed (ok : FieldSchema → Prop) : FieldSchema → Prop
  | .array items _ _ => items.WellFormed ok
  | .object obj => obj.WellFormed ok
  | field => ok field

def ObjectDef.WellFormed (ok : FieldSchema → Prop) : ObjectDef → Prop
  | .mk _ _ properties =>
      (properties.map Prod.fst).Nodup ∧ propertiesWellFormed ok properties

def propertiesWellFormed (ok : FieldSchema → Prop) : List (Bytes × FieldSchema) → Prop
  | [] => True
  | (_, field) :: properties => field.WellFormed ok ∧ propertiesWellFormed ok properties

end

variable {ok : FieldSchema → Prop}

theorem ObjectDef.WellFormed.nodup {obj : ObjectDef} (h : obj.WellFormed ok) :
  (obj.properties.map Prod.fst).Nodup
  := by
  obtain ⟨required, nullable, properties⟩ := obj
  exact h.1

theorem propertiesWellFormed_of_mem
    {properties : List (Bytes × FieldSchema)} (h : propertiesWellFormed ok properties)
    {property : Bytes × FieldSchema} (hmem : property ∈ properties) :
  property.2.WellFormed ok
  := by
  induction properties with
  | nil => cases hmem
  | cons head properties ih =>
      obtain ⟨name, field⟩ := head
      rw [propertiesWellFormed] at h
      rcases List.mem_cons.mp hmem with rfl | hmem
      · exact h.1
      · exact ih h.2 hmem

theorem ObjectDef.WellFormed.property {obj : ObjectDef}
    (h : obj.WellFormed ok) {property : Bytes × FieldSchema} (hmem : property ∈ obj.properties) :
  property.2.WellFormed ok
  := by
  obtain ⟨required, nullable, properties⟩ := obj
  exact propertiesWellFormed_of_mem h.2 hmem

/-- A field with a default satisfies the condition. -/
theorem FieldSchema.WellFormed.default {field : FieldSchema}
    (h : field.WellFormed ok) (hdefault : field.defaultValue ≠ none) :
  ok field
  := by
  cases field with
  | array items minLength maxLength => exact absurd rfl hdefault
  | object obj => exact absurd rfl hdefault
  | _ =>
      rw [FieldSchema.WellFormed] at h
      · exact h
      · nofun
      · nofun

/-- A definition is well-formed if its schemas are. -/
def Def.WellFormed (ok : FieldSchema → Prop) : Def → Prop
  | .record obj => obj.WellFormed ok
  | .object obj => obj.WellFormed ok
  | .procedure (some input) => input.WellFormed ok
  | _ => True

section

variable (catalog : Catalog)

/-- The default of a field, if it declares one, satisfies the schema of the field. -/
def DefaultHolds [DataEncoding] [Segmentation] (nsid : Bytes) (field : FieldSchema) : Prop :=
  ∀ default, field.defaultValue = some default →
    validateValue catalog nsid field default = .ok ()

/-- A catalog is well-formed if the names of properties are distinct and declared defaults satisfy
their own schemas. -/
def Catalog.WellFormed [DataEncoding] [Segmentation] : Prop :=
  ∀ nsid name definition, catalog.find nsid name = some definition →
    definition.WellFormed (DefaultHolds catalog nsid)

/-! ### The objects of a schema -/

/-- The object that a definition is. -/
def Catalog.objectDef (target : Bytes × Bytes) : Option ObjectDef :=
  match catalog.find target.1 target.2 with
  | some (.object obj) => some obj
  | some (.record record) => some record
  | _ => none

/-- What an object is by the schema of a field: the number of references and unions that are followed
to its definition, the schema that has it, and the definition. -/
def objectOf (nsid : Bytes) (map : List (Bytes × Json Number)) :
    FieldSchema → Option (ℕ × Bytes × ObjectDef)
  | .object obj => some (0, nsid, obj)
  | .ref reference =>
      (catalog.objectDef (resolveRef nsid reference)).map fun obj =>
        (1, (resolveRef nsid reference).1, obj)
  | .union refs _ =>
      ((map.lookup (ascii "$type")).bind Json.asStr).bind fun typeName =>
        (refs.findSome? (unionRefMatch nsid typeName)).bind fun target =>
          (catalog.objectDef target).map fun obj => (1, target.1, obj)
  | _ => none

variable {catalog}

variable {map map' filled : List (Bytes × Json Number)}

theorem objectOf_congr (h : map'.lookup (ascii "$type") = map.lookup (ascii "$type")) (nsid : Bytes)
    (field : FieldSchema) :
  objectOf catalog nsid map' field = objectOf catalog nsid map field
  := by
  cases field with
  | union refs closed => rw [objectOf, objectOf, h]
  | _ => rfl

section

variable [DataEncoding] [Segmentation]

theorem objectDef_wellFormed (h : catalog.WellFormed) {target : Bytes × Bytes} {obj : ObjectDef}
    (hobj : catalog.objectDef target = some obj) :
  obj.WellFormed (DefaultHolds catalog target.1)
  := by
  rw [Catalog.objectDef] at hobj
  split at hobj
  · rename_i found hfind
    cases hobj
    exact h _ _ _ hfind
  · rename_i found hfind
    cases hobj
    exact h _ _ _ hfind
  · cases hobj

/-- The objects of a well-formed schema are well-formed. -/
theorem objectOf_wellFormed (h : catalog.WellFormed) {nsid : Bytes} {field : FieldSchema}
    (hfield : field.WellFormed (DefaultHolds catalog nsid)) {map : List (Bytes × Json Number)}
    {steps : ℕ} {target : Bytes} {obj : ObjectDef}
    (hobj : objectOf catalog nsid map field = some (steps, target, obj)) :
  obj.WellFormed (DefaultHolds catalog target)
  := by
  cases field with
  | object obj' =>
      rw [objectOf] at hobj
      cases hobj
      exact hfield
  | ref reference =>
      obtain ⟨obj', hobj', heq⟩ := Option.map_eq_some_iff.mp hobj
      cases heq
      exact objectDef_wellFormed h hobj'
  | union refs closed =>
      obtain ⟨typeName, -, hobj⟩ := Option.bind_eq_some_iff.mp hobj
      obtain ⟨target', -, hobj⟩ := Option.bind_eq_some_iff.mp hobj
      obtain ⟨obj', hobj', heq⟩ := Option.map_eq_some_iff.mp hobj
      cases heq
      exact objectDef_wellFormed h hobj'
  | _ => cases hobj

end

/-! ### Filling by cases -/

variable (catalog)

/-- The members of an object after filling. -/
def fillMembers (nsid : Bytes) (obj : ObjectDef) (depth : ℕ) (map : List (Bytes × Json Number)) :
    List (Bytes × Json Number) :=
  obj.properties.foldl (applyProperty (applyDefaultsInner catalog) nsid depth map) map

variable {catalog}

variable {depth : ℕ} {nsid : Bytes} {property : Bytes × FieldSchema}

/-- Behind too many references nothing is filled. -/
theorem fill_of_deep (h : maxDefaultRefDepth < depth) (value : Json Number)
    (nsid : Bytes) (field : FieldSchema) :
  applyDefaultsInner catalog value nsid field depth = value
  := by
  rw [applyDefaultsInner_eq, applyDefaultsStep, if_pos h]

theorem applyDefDefaults_eq (target : Bytes × Bytes) (value : Json Number) (depth : ℕ) :
  applyDefDefaults (applyDefaultsInner catalog) catalog target value depth
    = (catalog.objectDef target).elim value fun obj =>
      applyObjectDefaults (applyDefaultsInner catalog) target.1 obj depth value
  := by
  rw [applyDefDefaults, Catalog.objectDef]
  cases catalog.find target.1 target.2 with
  | none => rfl
  | some definition => cases definition <;> rfl

/-- An object is filled by what it is by the schema. -/
theorem fill_object (h : depth ≤ maxDefaultRefDepth) (map : List (Bytes × Json Number))
    (nsid : Bytes) (field : FieldSchema) :
  applyDefaultsInner catalog (.object map) nsid field depth
    = (objectOf catalog nsid map field).elim (.object map) fun found =>
      .object (fillMembers catalog found.2.1 found.2.2 (depth + found.1) map)
  := by
  rw [applyDefaultsInner_eq, applyDefaultsStep, if_neg (not_lt.mpr h)]
  cases field with
  | ref reference =>
      rw [applyFieldDefaults, applyDefDefaults_eq, objectOf]
      cases catalog.objectDef (resolveRef nsid reference) <;> rfl
  | union refs closed =>
      rw [applyFieldDefaults, applyUnionDefaults, objectOf, Json.get]
      cases (map.lookup (ascii "$type")).bind Json.asStr with
      | none => rfl
      | some typeName =>
          rw [Option.bind_some]
          dsimp only
          cases refs.findSome? (unionRefMatch nsid typeName) with
          | none => rfl
          | some target =>
              rw [Option.bind_some]
              dsimp only
              rw [applyDefDefaults_eq]
              cases catalog.objectDef target <;> rfl
  | _ => rfl

theorem fill_array (h : depth ≤ maxDefaultRefDepth) (elems : List (Json Number))
    (nsid : Bytes) (items : FieldSchema) (minLength maxLength : Option ℕ) :
  applyDefaultsInner catalog (.array elems) nsid (.array items minLength maxLength) depth
    = .array (elems.map fun elem => applyDefaultsInner catalog elem nsid items depth)
  := by
  rw [applyDefaultsInner_eq, applyDefaultsStep, if_neg (not_lt.mpr h)]
  rfl

variable {field : FieldSchema} {name typeName : Bytes} {obj : ObjectDef}

/-- A value that is no object is filled only if it is an array, in an array field. -/
theorem fill_other {value : Json Number} (hobject : ∀ map, value ≠ .object map)
    (harray : ∀ elems items minLength maxLength,
      value = .array elems → field ≠ .array items minLength maxLength) (nsid : Bytes) (depth : ℕ) :
  applyDefaultsInner catalog value nsid field depth = value
  := by
  have hdef : ∀ target depth',
      applyDefDefaults (applyDefaultsInner catalog) catalog target value depth' = value := by
    intro target depth'
    rw [applyDefDefaults_eq]
    cases catalog.objectDef target with
    | none => rfl
    | some obj =>
        cases value with
        | object map => exact absurd rfl (hobject map)
        | _ => rfl
  rw [applyDefaultsInner_eq, applyDefaultsStep]
  split_ifs
  · rfl
  · cases field with
    | object obj =>
        cases value with
        | object map => exact absurd rfl (hobject map)
        | _ => rfl
    | array items minLength maxLength =>
        cases value with
        | array elems => exact absurd rfl (harray _ _ _ _ rfl)
        | _ => rfl
    | ref reference => apply hdef
    | union refs closed =>
        cases value with
        | object map => exact absurd rfl (hobject map)
        | _ => rfl
    | _ => rfl

@[simp]
theorem fill_null (nsid : Bytes) (field : FieldSchema) (depth : ℕ) :
  applyDefaultsInner catalog .null nsid field depth = .null
  := by
  apply fill_other <;> nofun

@[simp]
theorem fill_string (s nsid : Bytes) (field : FieldSchema) (depth : ℕ) :
  applyDefaultsInner catalog (.string s) nsid field depth = .string s
  := by
  apply fill_other <;> nofun

@[simp]
theorem fill_bool (b : Bool) (nsid : Bytes) (field : FieldSchema) (depth : ℕ) :
  applyDefaultsInner catalog (.bool b) nsid field depth = .bool b
  := by
  apply fill_other <;> nofun

@[simp]
theorem fill_number (n : Number) (nsid : Bytes) (field : FieldSchema) (depth : ℕ) :
  applyDefaultsInner catalog (.number n) nsid field depth = .number n
  := by
  apply fill_other <;> nofun

/-- An array is filled in an array field only. -/
theorem fill_array_other (h : ∀ items minLength maxLength, field ≠ .array items minLength maxLength)
    (elems : List (Json Number)) (nsid : Bytes) (depth : ℕ) :
  applyDefaultsInner catalog (.array elems) nsid field depth = .array elems
  := by
  apply fill_other
  · nofun
  · intro _ items minLength maxLength _
    apply h

/-- A default has nothing to fill. -/
theorem fill_default {default : Json Number}
    (h : field.defaultValue = some default) (nsid : Bytes) (depth : ℕ) :
  applyDefaultsInner catalog default nsid field depth = default
  := by
  apply fill_other
  · rintro map rfl
    cases field with
    | string c default => cases default <;> cases h
    | integer c default => cases default <;> cases h
    | boolean default c => cases default <;> cases h
    | _ => cases h
  · rintro elems items minLength maxLength rfl rfl
    cases h

/-! ### The members of an object -/

variable (catalog)

/-- What becomes of a member that a property declares: one that is there is filled, and one that is
not is given the default. -/
def filledMember (nsid : Bytes) (field : FieldSchema) (depth : ℕ) :
    Option (Json Number) → Option (Json Number)
  | none => field.defaultValue
  | some child => some (applyDefaultsInner catalog child nsid field depth)

variable {catalog}

theorem lookup_applyProperty_self (h : filled.lookup property.1 = map.lookup property.1) :
  (applyProperty (applyDefaultsInner catalog) nsid depth map filled property).lookup property.1
    = filledMember catalog nsid property.2 depth (map.lookup property.1)
  := by
  rw [applyProperty]
  cases hmember : map.lookup property.1 with
  | none =>
      rw [hmember] at h
      rw [filledMember]
      cases property.2.defaultValue with
      | none => exact h
      | some default => apply List.lookup_setEntry_self
  | some child =>
      rw [hmember] at h
      rw [filledMember]
      cases child with
      | null => rw [h, fill_null]
      | _ => apply List.lookup_replaceEntry_self h

theorem lookup_applyProperty_of_ne (h : name ≠ property.1) :
  (applyProperty (applyDefaultsInner catalog) nsid depth map filled property).lookup name
    = filled.lookup name
  := by
  rw [applyProperty]
  split
  · rfl
  · apply List.lookup_replaceEntry_of_ne h
  · cases property.2.defaultValue with
    | none => rfl
    | some default => apply List.lookup_setEntry_of_ne h

/-- A name that is not declared keeps what is under it. -/
theorem lookup_foldl_of_not_mem {properties : List (Bytes × FieldSchema)}
    (h : name ∉ properties.map Prod.fst) (filled : List (Bytes × Json Number)) :
  (properties.foldl (applyProperty (applyDefaultsInner catalog) nsid depth map) filled).lookup name
    = filled.lookup name
  := by
  induction properties generalizing filled with
  | nil => rfl
  | cons property properties ih =>
      obtain ⟨hne, hnot⟩ := List.ne_and_not_mem_of_not_mem_cons h
      rw [List.foldl_cons, ih hnot, lookup_applyProperty_of_ne hne]

theorem lookup_foldl_of_mem
    {properties : List (Bytes × FieldSchema)} (hnodup : (properties.map Prod.fst).Nodup)
    (h : property ∈ properties)
    (hfilled : filled.lookup property.1 = map.lookup property.1) :
  (properties.foldl (applyProperty (applyDefaultsInner catalog) nsid depth map) filled).lookup
      property.1
    = filledMember catalog nsid property.2 depth (map.lookup property.1)
  := by
  induction properties generalizing filled with
  | nil => cases h
  | cons head properties ih =>
      obtain ⟨hnot, hnodup⟩ := List.nodup_cons.mp hnodup
      rw [List.foldl_cons]
      rcases List.mem_cons.mp h with rfl | h
      · rw [lookup_foldl_of_not_mem hnot, lookup_applyProperty_self hfilled]
      · have hne : property.1 ≠ head.1 := by
          intro heq
          exact hnot (heq ▸ List.mem_map_of_mem h)
        apply ih hnodup h
        rw [lookup_applyProperty_of_ne hne, hfilled]

theorem lookup_fillMembers (hnodup : (obj.properties.map Prod.fst).Nodup)
    (h : property ∈ obj.properties) (nsid : Bytes) (depth : ℕ) (map : List (Bytes × Json Number)) :
  (fillMembers catalog nsid obj depth map).lookup property.1
    = filledMember catalog nsid property.2 depth (map.lookup property.1)
  := by
  exact lookup_foldl_of_mem hnodup h rfl

theorem lookup_fillMembers_of_not_mem
    (h : name ∉ obj.properties.map Prod.fst) (nsid : Bytes) (depth : ℕ)
    (map : List (Bytes × Json Number)) :
  (fillMembers catalog nsid obj depth map).lookup name = map.lookup name
  := by
  exact lookup_foldl_of_not_mem h map

/-- Filling does not change the type of an object. -/
theorem lookup_type_fillMembers (hnodup : (obj.properties.map Prod.fst).Nodup)
    (htype : map.lookup (ascii "$type") = some (.string typeName)) (nsid : Bytes) (depth : ℕ) :
  (fillMembers catalog nsid obj depth map).lookup (ascii "$type") = some (.string typeName)
  := by
  by_cases hmem : ascii "$type" ∈ obj.properties.map Prod.fst
  · obtain ⟨property, hproperty, heq⟩ := List.mem_map.mp hmem
    rw [← heq] at htype ⊢
    rw [lookup_fillMembers hnodup hproperty, htype, filledMember, fill_string]
  · rw [lookup_fillMembers_of_not_mem hmem, htype]

/-- A member of a union has a type. -/
theorem type_of_union {refs : List Bytes} {closed : Option Bool} {found : ℕ × Bytes × ObjectDef}
    (h : objectOf catalog nsid map (.union refs closed) = some found) :
  ∃ typeName target, map.lookup (ascii "$type") = some (.string typeName)
    ∧ refs.findSome? (unionRefMatch nsid typeName) = some target
    ∧ (catalog.objectDef target).map (fun obj => (1, target.1, obj)) = some found
  := by
  obtain ⟨typeName, htype, h⟩ := Option.bind_eq_some_iff.mp h
  obtain ⟨value, hvalue, htext⟩ := Option.bind_eq_some_iff.mp htype
  obtain ⟨target, htarget, h⟩ := Option.bind_eq_some_iff.mp h
  cases value with
  | string s =>
      cases htext
      exact ⟨typeName, target, hvalue, htarget, h⟩
  | _ => cases htext

/-- An object that has been filled is the same by the schema of a field. -/
theorem objectOf_fillMembers {found : ℕ × Bytes × ObjectDef}
    (h : objectOf catalog nsid map field = some found)
    (hnodup : (found.2.2.properties.map Prod.fst).Nodup) (depth : ℕ) :
  objectOf catalog nsid (fillMembers catalog found.2.1 found.2.2 depth map) field = some found
  := by
  cases field with
  | union refs closed =>
      obtain ⟨typeName, target, htype, -⟩ := type_of_union h
      rw [← h]
      apply objectOf_congr
      rw [lookup_type_fillMembers hnodup htype, htype]
  | _ => exact h

/-! ### Filled values -/

/-- An object of which each declared member is filled, or has no default, is filled. -/
theorem fillMembers_eq_self (h : ∀ property ∈ obj.properties,
      filledMember catalog nsid property.2 depth (map.lookup property.1)
        = map.lookup property.1) :
  fillMembers catalog nsid obj depth map = map
  := by
  rw [fillMembers]
  apply List.foldlRecOn (motive := fun filled => filled = map) _ _ rfl
  rintro filled rfl property hproperty
  have hmember := h property hproperty
  rw [applyProperty]
  cases hlookup : filled.lookup property.1 with
  | none =>
      rw [hlookup, filledMember] at hmember
      dsimp only
      rw [hmember, Option.elim_none]
  | some child =>
      rw [hlookup, filledMember] at hmember
      cases child with
      | null => rfl
      | _ =>
          apply List.replaceEntry_of_lookup
          rw [hlookup, ← hmember]

end

end Shrike.Lexicon
