import Shrike.Lexicon.Filled

/-!
# What is reached by filling

The places in a value that a schema reaches, and what is there after the input of a procedure has
been validated and filled.
-/

namespace Shrike.Lexicon

open Cbor Bytes

/-! ### Places -/

/-- The places in a value that the schema of a field reaches: the value there, the schema of its field
and the schema that has it, with how many references and unions are followed on the way and how many
definitions of arrays are gone into. -/
inductive Reaches (catalog : Catalog) (nsid : Bytes) (field : FieldSchema) (value : Json Number) :
    (refs arrays : ℕ) → Bytes → FieldSchema → Json Number → Prop
  | root : Reaches catalog nsid field value 0 0 nsid field value
  | item {refs arrays context items minLength maxLength elems elem}
      (h : Reaches catalog nsid field value refs arrays context (.array items minLength maxLength)
        (.array elems))
      (helem : elem ∈ elems) : Reaches catalog nsid field value refs arrays context items elem
  | definedItem {refs arrays context reference items elems elem}
      (h : Reaches catalog nsid field value refs arrays context (.ref reference) (.array elems))
      (hdef : catalog.find (resolveRef context reference).1 (resolveRef context reference).2
        = some (.array items)) (helem : elem ∈ elems) :
      Reaches catalog nsid field value (refs + 1) (arrays + 1) (resolveRef context reference).1
        items elem
  | property {refs arrays context field'}
      {map : List (Bytes × Json Number)} {steps target} {obj : ObjectDef} {name propertyField child}
      (h : Reaches catalog nsid field value refs arrays context field' (.object map))
      (hobj : objectOf catalog context map field' = some (steps, target, obj))
      (hproperty : (name, propertyField) ∈ obj.properties) (hchild : map.lookup name = some child) :
      Reaches catalog nsid field value (refs + steps) arrays target propertyField child

/-- Every object that is reached, by a way that is considered, has each property that declares a
default. -/
def Complete (catalog : Catalog) (considered : (refs arrays : ℕ) → Prop) (nsid : Bytes)
    (field : FieldSchema) (value : Json Number) : Prop :=
  ∀ {refs arrays : ℕ} {context : Bytes} {field' : FieldSchema} {map : List (Bytes × Json Number)}
    {steps : ℕ} {target : Bytes} {obj : ObjectDef},
    Reaches catalog nsid field value refs arrays context field' (.object map) →
    considered refs arrays → objectOf catalog context map field' = some (steps, target, obj) →
    ∀ property ∈ obj.properties, property.2.defaultValue ≠ none →
      map.lookup property.1 ≠ none

/-- A value that has come of another by putting defaults that are declared where there was nothing:
whatever was there is there, unchanged but for such filling. -/
inductive Fills (catalog : Catalog) : Bytes → FieldSchema → Json Number → Json Number → Prop
  | same {nsid field} (value : Json Number) :
      Fills catalog nsid field value value
  | items {nsid items minLength maxLength}
      {elems elems' : List (Json Number)} (hlength : elems'.length = elems.length)
      (h : ∀ (i : ℕ) elem elem', elems[i]? = some elem → elems'[i]? = some elem' →
        Fills catalog nsid items elem elem') :
      Fills catalog nsid (.array items minLength maxLength) (.array elems) (.array elems')
  | members {nsid field} {map map' : List (Bytes × Json Number)} {steps target} {obj : ObjectDef}
      (hobj : objectOf catalog nsid map field = some (steps, target, obj))
      (hkept : ∀ name, map.lookup name ≠ none → map'.lookup name ≠ none)
      (hdeclared : ∀ name field' child child', (name, field') ∈ obj.properties →
        map.lookup name = some child → map'.lookup name = some child' →
        Fills catalog target field' child child')
      (hother : ∀ name, name ∉ obj.properties.map Prod.fst → map'.lookup name = map.lookup name)
      (hdefault : ∀ name child', map.lookup name = none → map'.lookup name = some child' →
        ∃ field', (name, field') ∈ obj.properties ∧ field'.defaultValue = some child') :
      Fills catalog nsid field (.object map) (.object map')

section

variable {catalog : Catalog} [DataEncoding] [Segmentation]

/-! ### What filling changes -/

/-- Filling puts in nothing but defaults. -/
theorem fills_applyDefaultsInner (hcatalog : catalog.WellFormed) (value : Json Number) :
  ∀ {nsid : Bytes} {field : FieldSchema}, field.WellFormed (DefaultHolds catalog nsid) →
    ∀ depth : ℕ, Fills catalog nsid field value (applyDefaultsInner catalog value nsid field depth)
  := by
  induction value using Json.induction_children with
  | h value ih =>
      intro nsid field hfield depth
      by_cases hdepth : depth ≤ maxDefaultRefDepth
      · cases value with
        | object map =>
            rw [fill_object hdepth]
            cases hfound : objectOf catalog nsid map field with
            | none => exact .same _
            | some found =>
                have hobj := objectOf_wellFormed hcatalog hfield hfound
                apply Fills.members hfound
                · intro name hname
                  by_cases hmem : name ∈ found.2.2.properties.map Prod.fst
                  · obtain ⟨property, hproperty, rfl⟩ := List.mem_map.mp hmem
                    obtain ⟨child, hchild⟩ := Option.ne_none_iff_exists'.mp hname
                    rw [lookup_fillMembers hobj.nodup hproperty, hchild, filledMember]
                    apply Option.some_ne_none
                  · rw [lookup_fillMembers_of_not_mem hmem]
                    exact hname
                · intro name field' child child' hproperty hchild hchild'
                  rw [lookup_fillMembers hobj.nodup hproperty, hchild, filledMember] at hchild'
                  cases hchild'
                  apply ih child (Json.mem_children_of_lookup hchild) (hobj.property hproperty)
                · intro name hname
                  apply lookup_fillMembers_of_not_mem hname
                · intro name child' hnone hchild'
                  by_cases hname : name ∈ found.2.2.properties.map Prod.fst
                  · obtain ⟨property, hproperty, rfl⟩ := List.mem_map.mp hname
                    rw [lookup_fillMembers hobj.nodup hproperty, hnone, filledMember] at hchild'
                    exact ⟨property.2, hproperty, hchild'⟩
                  · rw [lookup_fillMembers_of_not_mem hname, hnone] at hchild'
                    cases hchild'
        | array elems =>
            by_cases harray : ∃ items minLength maxLength, field = .array items minLength maxLength
            · obtain ⟨items, minLength, maxLength, rfl⟩ := harray
              rw [FieldSchema.WellFormed] at hfield
              rw [fill_array hdepth]
              apply Fills.items
              · apply List.length_map
              · intro i elem elem' helem helem'
                rw [List.getElem?_map, helem, Option.map_some] at helem'
                cases helem'
                apply ih elem (List.mem_of_getElem? helem) hfield
            · rw [fill_array_other fun items minLength maxLength heq =>
                harray ⟨items, minLength, maxLength, heq⟩]
              exact .same _
        | null =>
            rw [fill_null]
            exact .same _
        | bool b =>
            rw [fill_bool]
            exact .same _
        | number n =>
            rw [fill_number]
            exact .same _
        | string s =>
            rw [fill_string]
            exact .same _
      · rw [fill_of_deep (not_le.mp hdepth)]
        exact .same _

/-! ### What is reached is filled -/

variable {nsid context : Bytes}

variable {field field' input : FieldSchema}

variable {value value' : Json Number}

/-- If a value is filled, then so is what is reached in it. -/
theorem Reaches.filled (hcatalog : catalog.WellFormed)
    (hfield : field.WellFormed (DefaultHolds catalog nsid))
    (hfilled : applyDefaultsInner catalog value nsid field 0 = value) {refs arrays : ℕ}
    (h : Reaches catalog nsid field value refs arrays context field' value') (harrays : arrays = 0) :
  field'.WellFormed (DefaultHolds catalog context)
    ∧ applyDefaultsInner catalog value' context field' refs = value'
  := by
  induction h with
  | root => exact ⟨hfield, hfilled⟩
  | @item refs arrays context items minLength maxLength elems elem h helem ih =>
      obtain ⟨hitems, heq⟩ := ih harrays
      rw [FieldSchema.WellFormed] at hitems
      refine ⟨hitems, ?_⟩
      by_cases hdepth : refs ≤ maxDefaultRefDepth
      · rw [fill_array hdepth, Json.array.injEq] at heq
        apply List.map_inj_left.mp _ elem helem
        rw [heq, List.map_id']
      · apply fill_of_deep (not_le.mp hdepth)
  | definedItem => cases harrays
  | @property refs arrays context field' map steps target obj name propertyField child h hobj
      hproperty hchild ih =>
      obtain ⟨hfield', heq⟩ := ih harrays
      have hwellFormed := objectOf_wellFormed hcatalog hfield' hobj
      refine ⟨hwellFormed.property hproperty, ?_⟩
      by_cases hdepth : refs ≤ maxDefaultRefDepth
      · rw [fill_object hdepth, hobj, Option.elim_some, Json.object.injEq] at heq
        have hlookup := @lookup_fillMembers catalog _ _ hwellFormed.nodup hproperty target
          (refs + steps) map
        rw [heq, hchild, filledMember] at hlookup
        exact (Option.some.inj hlookup).symm
      · apply fill_of_deep
        have hlt := not_le.mp hdepth
        omega

/-- A filled value is complete where filling goes: behind at most so many references and unions, and
not into the definitions of arrays. -/
theorem complete_of_filled (hcatalog : catalog.WellFormed)
    (hfield : field.WellFormed (DefaultHolds catalog nsid))
    (hfilled : applyDefaultsInner catalog value nsid field 0 = value) :
  Complete catalog (fun refs arrays => refs ≤ maxDefaultRefDepth ∧ arrays = 0) nsid field value
  := by
  rintro refs arrays context field' map steps target obj hreaches ⟨hrefs, harrays⟩ hobj property
    hproperty hdefault
  obtain ⟨hfield', heq⟩ := hreaches.filled hcatalog hfield hfilled harrays
  have hwellFormed := objectOf_wellFormed hcatalog hfield' hobj
  rw [fill_object hrefs, hobj, Option.elim_some, Json.object.injEq] at heq
  have hlookup := @lookup_fillMembers catalog _ _ hwellFormed.nodup hproperty target (refs + steps)
    map
  intro hnone
  rw [heq, hnone, filledMember] at hlookup
  exact hdefault hlookup.symm

/-! ### Inputs -/

/-- What comes of the input of a procedure. -/
theorem validateInput_eq_ok {value filled : Json Number}
    (hinput : catalog.mainDef nsid = some (.procedure (some input))) :
  validateInput catalog nsid value = .ok filled
    ↔ validateField catalog value nsid (.root (ascii "input")) input false = []
      ∧ applyDefaults catalog nsid input value = filled
  := by
  have heq : validateInput catalog nsid value
      = (validateValueAt catalog nsid (ascii "input") input value).map
        fun _ => applyDefaults catalog nsid input value := by
    rw [validateInput, methodDef, hinput]
    show (validateValueAt catalog nsid (ascii "input") input value >>= fun _ => _) = _
    cases validateValueAt catalog nsid (ascii "input") input value <;> rfl
  rw [heq, ← finalize_eq_ok, ← validateValueAt]
  cases validateValueAt catalog nsid (ascii "input") input value with
  | error e => constructor <;> nofun
  | ok u => simp [Except.map]

/-- In the input of a procedure, once it has been accepted, each object that is reached behind at most
64 references and unions, and not through the definition of an array, has its defaults. Nothing else
has changed, and the input is accepted again as it is. -/
theorem validateInput_fills (hcatalog : catalog.WellFormed) {nsid : Bytes} {input : FieldSchema}
    (hinput : catalog.mainDef nsid = some (.procedure (some input))) {value filled : Json Number}
    (h : validateInput catalog nsid value = .ok filled) :
  Complete catalog (fun refs arrays => refs ≤ maxDefaultRefDepth ∧ arrays = 0) nsid input filled
    ∧ Fills catalog nsid input value filled
    ∧ validateInput catalog nsid filled = .ok filled
  := by
  have hfield : input.WellFormed (DefaultHolds catalog nsid) := hcatalog _ _ _ hinput
  obtain ⟨hvalid, rfl⟩ := (validateInput_eq_ok hinput).mp h
  have hagain := fill_fill hcatalog value hfield 0
  constructor
  · exact complete_of_filled hcatalog hfield hagain
  constructor
  · exact fills_applyDefaultsInner hcatalog value hfield 0
  · apply (validateInput_eq_ok hinput).mpr
    exact ⟨validateField_fill hcatalog value hfield hvalid 0, hagain⟩

end

/-! ### Deep inputs -/

namespace Chain

attribute [local instance] DataEncoding.standard

/-- A segmentation that takes each character for a cluster. -/
@[reducible]
def segmentation : Segmentation := ⟨charCount⟩

attribute [local instance] segmentation

/-- A link of a chain: its kind, which has a default, and the next link. -/
def node : ObjectDef :=
  .mk [ascii "kind"] []
    [(ascii "kind", .string {} (some (ascii "x"))), (ascii "next", .ref (ascii "#node"))]

def chain : Bytes := ascii "com.example.chain"

def batch : Bytes := ascii "com.example.batch"

/-- A procedure that is given a chain, and one that is given a list of objects. -/
def catalog : Catalog where
  schemas :=
    [(chain, [(ascii "main", .procedure (some (.ref (ascii "#node")))),
        (ascii "node", .object node)]),
      (batch, [(ascii "main", .procedure (some (.ref (ascii "#list")))),
        (ascii "list", .array (.object (.mk [] []
          [(ascii "kind", .string {} (some (ascii "x")))])))])]

/-- A chain of links without their kinds. -/
def nest : ℕ → Json Number
  | 0 => .object []
  | n + 1 => .object [(ascii "next", nest n)]

theorem defaultHolds_kind (nsid : Bytes) :
  DefaultHolds catalog nsid (.string {} (some (ascii "x")))
  := by
  rintro default h
  cases h
  rfl

theorem catalog_wellFormed :
  catalog.WellFormed
  := by
  intro nsid name definition hfind
  obtain ⟨defs, hget, hdef⟩ := Option.bind_eq_some_iff.mp hfind
  have hdefs := List.mem_of_lookup hget
  have hdefinition := List.mem_of_lookup hdef
  have hnodup : (node.properties.map Prod.fst).Nodup := by decide
  rcases List.mem_cons.mp hdefs with heq | hdefs
  · cases heq
    rcases List.mem_cons.mp hdefinition with heq | hdefinition
    · cases heq
      intro default hdefault
      cases hdefault
    · cases List.mem_singleton.mp hdefinition
      refine ⟨hnodup, defaultHolds_kind _, ?_, trivial⟩
      intro default hdefault
      cases hdefault
  · cases List.mem_singleton.mp hdefs
    rcases List.mem_cons.mp hdefinition with heq | hdefinition
    · cases heq
      intro default hdefault
      cases hdefault
    · cases List.mem_singleton.mp hdefinition
      trivial

theorem validateField_nest (n : ℕ) (path : Path) (nullable : Bool) :
  validateField catalog (nest n) chain path (.ref (ascii "#node")) nullable = []
  := by
  induction n generalizing path nullable with
  | zero => rfl
  | succ n ih =>
      rw [validateField_eq]
      show validateObject (validateField catalog) chain path node (.object [(ascii "next", nest n)])
        = []
      apply validateObject_eq_nil.mpr
      constructor
      · intro req hreq
        cases List.mem_singleton.mp hreq
        rfl
      · intro property hproperty
        rcases List.mem_cons.mp hproperty with rfl | hproperty
        · rfl
        · cases List.mem_singleton.mp hproperty
          apply ih

/-- A link is given its kind, and the next one is filled. -/
theorem fill_nest {depth : ℕ} (h : depth ≤ maxDefaultRefDepth) (n : ℕ) :
  applyDefaultsInner catalog (nest (n + 1)) chain (.ref (ascii "#node")) depth
    = .object [(ascii "kind", .string (ascii "x")),
      (ascii "next", applyDefaultsInner catalog (nest n) chain (.ref (ascii "#node")) (depth + 1))]
  := by
  rw [nest, fill_object h]
  cases n <;> rfl

/-- The links of a filled chain are reached one behind the other. -/
theorem reaches_nest {k : ℕ} (hk : k ≤ 65) :
  Reaches catalog chain (.ref (ascii "#node"))
    (applyDefaults catalog chain (.ref (ascii "#node")) (nest 65)) k 0 chain (.ref (ascii "#node"))
    (applyDefaultsInner catalog (nest (65 - k)) chain (.ref (ascii "#node")) k)
  := by
  induction k with
  | zero => exact .root
  | succ k ih =>
      have hreaches := ih (by omega)
      obtain ⟨n, hn⟩ : ∃ n, 65 - k = n + 1 := ⟨64 - k, by omega⟩
      have hdepth : k ≤ maxDefaultRefDepth := by
        rw [maxDefaultRefDepth]
        omega
      rw [hn, fill_nest hdepth] at hreaches
      have hn' : 65 - (k + 1) = n := by omega
      rw [hn']
      exact hreaches.property rfl (List.mem_cons_of_mem _ List.mem_cons_self) rfl

/-- A chain of 66 links and a list behind a definition are accepted, but the last link is not given
its kind, nor are the objects of the list, though the schema of the one is reached through no
definition of an array and that of the other behind few references. -/
theorem inputs_incomplete :
  catalog.WellFormed
    ∧ (∃ filled, validateInput catalog chain (nest 65) = .ok filled
      ∧ ¬Complete catalog (fun _ arrays => arrays = 0) chain (.ref (ascii "#node")) filled)
    ∧ ∃ filled, validateInput catalog batch (.array [.object []]) = .ok filled
      ∧ ¬Complete catalog (fun refs _ => refs ≤ maxDefaultRefDepth) batch (.ref (ascii "#list"))
        filled
  := by
  refine ⟨catalog_wellFormed, ⟨applyDefaults catalog chain (.ref (ascii "#node")) (nest 65), ?_, ?_⟩,
    ⟨.array [.object []], ?_, ?_⟩⟩
  · exact (validateInput_eq_ok rfl).mpr ⟨validateField_nest _ _ _, rfl⟩
  · intro hcomplete
    have hreaches := @reaches_nest 65 le_rfl
    rw [fill_of_deep (by decide)] at hreaches
    exact hcomplete hreaches rfl rfl _ List.mem_cons_self nofun rfl
  · exact (validateInput_eq_ok rfl).mpr ⟨rfl, rfl⟩
  · intro hcomplete
    have hreaches := (@Reaches.root catalog batch (.ref (ascii "#list"))
      (.array [.object []])).definedItem rfl List.mem_cons_self
    exact hcomplete hreaches (by decide) rfl _ List.mem_cons_self nofun rfl

/-- A chain of two links is filled. -/
theorem short_chain_fills :
  Complete catalog (fun refs arrays => refs ≤ maxDefaultRefDepth ∧ arrays = 0) chain
      (.ref (ascii "#node")) (applyDefaults catalog chain (.ref (ascii "#node")) (nest 1))
    ∧ Fills catalog chain (.ref (ascii "#node")) (nest 1)
      (applyDefaults catalog chain (.ref (ascii "#node")) (nest 1))
    ∧ validateInput catalog chain (applyDefaults catalog chain (.ref (ascii "#node")) (nest 1))
      = .ok (applyDefaults catalog chain (.ref (ascii "#node")) (nest 1))
  := validateInput_fills catalog_wellFormed rfl
    ((validateInput_eq_ok rfl).mpr ⟨validateField_nest _ _ _, rfl⟩)

end Chain

end Shrike.Lexicon
