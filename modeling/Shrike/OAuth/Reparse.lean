import Shrike.OAuth.Granted
import Shrike.OAuth.Render

/-!
# Permissions that are read back

What a parsed permission contains was given to it, and what a rendered permission of a set parses
to contains nothing that the permission did not.
-/

namespace Shrike.OAuth

open Bytes

variable {url : UrlLibrary} {decode : Bytes → Bytes}

/-! ### Validated texts -/

variable {syn : Syntax} {value : Bytes}

theorem isAscii_of_isNsid (h : isNsid value = true) :
  IsAscii value
  := by
  rw [isNsid] at h
  cases hvalidate : Shrike.Syntax.Nsid.validate value with
  | error err =>
      rw [hvalidate] at h
      cases h
  | ok lastDot => exact Shrike.Syntax.Nsid.isAscii_of_validate hvalidate

theorem utf8_of_isNsidOrWildcard (h : isNsidOrWildcard value = true) :
  utf8 value = true
  := by
  rcases Bool.or_eq_true_iff.mp h with h | h
  · rw [beq_iff_eq.mp h]
    rfl
  · exact (isAscii_of_isNsid h).utf8

variable {b : UInt8}

theorem lt_of_hexDigit (h : (hexDigit b).isSome = true) :
  b < 0x80
  := by
  unfold hexDigit at h
  split at h
  · rename_i hdigit
    apply lt_of_isAsciiAlphanumeric
    rw [isAsciiAlphanumeric, hdigit, Bool.or_true]
  · split at h
    · rename_i hupper
      rw [Bool.and_eq_true, decide_eq_true_eq, decide_eq_true_eq] at hupper
      exact lt_of_le_of_lt hupper.2 (by decide)
    · split at h
      · rename_i hlower
        rw [Bool.and_eq_true, decide_eq_true_eq, decide_eq_true_eq] at hlower
        exact lt_of_le_of_lt hlower.2 (by decide)
      · cases h

theorem lt_of_isUpperHex (h : isUpperHex b = true) :
  b < 0x80
  := by
  rcases Bool.or_eq_true_iff.mp h with h | h
  · apply lt_of_isAsciiAlphanumeric
    rw [isAsciiAlphanumeric, h, Bool.or_true]
  · rw [Bool.and_eq_true, decide_eq_true_eq, decide_eq_true_eq] at h
    exact lt_of_le_of_lt h.2 (by decide)

variable {c l v bs did key positional : Bytes}

theorem lt_of_alphanumeric_or_mem (hbs : ∀ c ∈ bs, c < 0x80)
    (h : (isAsciiAlphanumeric b || bs.contains b) = true) :
  b < 0x80
  := by
  rcases Bool.or_eq_true_iff.mp h with h | h
  · exact lt_of_isAsciiAlphanumeric h
  · exact hbs b (List.contains_iff_mem.mp h)

theorem isAscii_of_isFragment :
  ∀ {value : Bytes}, isFragment value = true → IsAscii value
  | [], _ => fun _ hb => (by cases hb)
  | b :: bs, h => by
      unfold isFragment at h
      split at h
      · rename_i hpercent
        split at h
        · rename_i a c rest
          rw [Bool.and_eq_true, Bool.and_eq_true] at h
          rw [isAscii_cons, isAscii_cons, isAscii_cons, hpercent]
          exact ⟨by decide, lt_of_hexDigit h.1.1, lt_of_hexDigit h.1.2, isAscii_of_isFragment h.2⟩
        · cases h
      · rw [Bool.and_eq_true] at h
        rw [isAscii_cons]
        exact ⟨lt_of_alphanumeric_or_mem (by decide +kernel) h.1, isAscii_of_isFragment h.2⟩

theorem isAscii_of_isDidMsidFrom :
  ∀ {value : Bytes}, isDidMsidFrom value = true → IsAscii value
  | [], _ => fun _ hb => (by cases hb)
  | b :: bs, h => by
      unfold isDidMsidFrom at h
      split at h
      · rename_i hpercent
        split at h
        · rename_i a c rest
          rw [Bool.and_eq_true, Bool.and_eq_true] at h
          rw [isAscii_cons, isAscii_cons, isAscii_cons, hpercent]
          exact ⟨by decide, lt_of_isUpperHex h.1.1, lt_of_isUpperHex h.1.2,
            isAscii_of_isDidMsidFrom h.2⟩
        · cases h
      · split at h
        · cases h
        · rw [Bool.and_eq_true] at h
          rw [isAscii_cons]
          exact ⟨lt_of_alphanumeric_or_mem (by decide +kernel) h.1, isAscii_of_isDidMsidFrom h.2⟩

theorem isAscii_of_isDid (h : isDid did = true) :
  IsAscii did
  := by
  unfold isDid at h
  split at h
  · cases h
  · rename_i rest hrest
    split at h
    · cases h
    · rename_i method msid hparts
      simp only [Bool.and_eq_true] at h
      obtain ⟨⟨-, hmethod⟩, hmsid⟩ := h
      rw [stripPrefix_some hrest, splitOnce_some hparts, isAscii_append, isAscii_append, isAscii_cons]
      refine ⟨by decide +kernel, ?_, by decide +kernel, ?_⟩
      · intro b hb
        have hb := List.all_eq_true.mp hmethod b hb
        apply lt_of_isAsciiAlphanumeric
        rw [isAsciiAlphanumeric, isAsciiAlphabetic]
        rcases Bool.or_eq_true_iff.mp hb with hb | hb
        · rw [hb, Bool.or_true, Bool.true_or]
        · rw [hb, Bool.or_true]
      · rw [isDidMsid, Bool.and_eq_true] at hmsid
        exact isAscii_of_isDidMsidFrom hmsid.1

theorem isAscii_of_isAtprotoDidRef (h : isAtprotoDidRef url value = true) :
  IsAscii value
  := by
  unfold isAtprotoDidRef at h
  split at h
  · cases h
  · rename_i did fragment hparts
    simp only [Bool.and_eq_true] at h
    obtain ⟨⟨⟨-, hfragment⟩, hdid⟩, -⟩ := h
    rw [splitOnce_some hparts, isAscii_append, isAscii_cons]
    exact ⟨isAscii_of_isDid hdid, by decide, isAscii_of_isFragment hfragment⟩

theorem utf8_of_isAud (h : isAud url value = true) :
  utf8 value = true
  := by
  rcases Bool.or_eq_true_iff.mp h with h | h
  · rw [beq_iff_eq.mp h]
    rfl
  · exact (isAscii_of_isAtprotoDidRef h).utf8

/-- The wildcard is no reference to a service. -/
theorem ne_wildcard_of_isAtprotoDidRef (h : isAtprotoDidRef url value = true) :
  value ≠ ascii "*"
  := by
  rintro rfl
  cases h

/-! ### Parsed parameters -/

/-- The values of a parsed parameter. -/
def Parsed.values : Parsed → List Bytes
  | .absent => []
  | .one value => [value]
  | .many values => values

variable {param : Param}

theorem Param.mem_values_of_single (h : param.single = some value) :
  value ∈ param.values
  := by
  unfold Param.single at h
  split at h
  · cases h
    exact List.mem_singleton_self _
  · cases h
    exact List.mem_singleton_self _
  · cases h

variable {values : List Bytes}

theorem Param.values_of_multi (h : param.multi = some values) :
  param.values = values
  := by
  unfold Param.multi at h
  split at h
  · cases h
    rfl
  · cases h
    rfl
  · cases h

theorem Syntax.mem_of_get (h : syn.get key = some param) :
  (key, param) ∈ syn.params
  := by
  obtain ⟨entry, hfind, rfl⟩ := Option.map_eq_some_iff.mp h
  have hkey := List.find?_some hfind
  rw [beq_iff_eq] at hkey
  rw [← hkey]
  exact List.mem_of_find?_eq_some hfind

/-- The value is the positional parameter, or one of the parameter with this name. -/
def Syntax.Gives (syn : Syntax) (positional name value : Bytes) : Prop :=
  (name = positional ∧ syn.positional = some value) ∨
    ∃ param, (name, param) ∈ syn.params ∧ value ∈ param.values

variable {parsed : Parsed}

/-- What a parameter is parsed to was given and is valid. -/
theorem parseField_sound {field : Field} (h : parseField syn positional field = some parsed) :
  ∀ value ∈ parsed.values, field.validate value = true ∧ syn.Gives positional field.name value
  := by
  unfold parseField at h
  split at h
  · rename_i _ param hget
    have hparam := Syntax.mem_of_get hget
    split at h
    · cases h
    · split at h
      · obtain ⟨values, hvalues, h⟩ := Option.bind_eq_some_iff.mp h
        split at h
        · rename_i hvalid
          cases h
          intro value hvalue
          refine ⟨List.all_eq_true.mp hvalid.2 value hvalue, .inr ⟨param, hparam, ?_⟩⟩
          rw [Param.values_of_multi hvalues]
          exact hvalue
        · cases h
      · obtain ⟨value, hvalue, h⟩ := Option.bind_eq_some_iff.mp h
        split at h
        · rename_i hvalid
          cases h
          intro value' hvalue'
          rw [List.mem_singleton.mp hvalue']
          exact ⟨hvalid, .inr ⟨param, hparam, Param.mem_values_of_single hvalue⟩⟩
        · cases h
  · rename_i value hget hpositional
    split at h
    · rename_i hname
      split at h
      · rename_i hvalid
        cases h
        intro value' hvalue'
        have heq : value' = value := by
          split at hvalue'
          · exact List.mem_singleton.mp hvalue'
          · exact List.mem_singleton.mp hvalue'
        rw [heq]
        exact ⟨hvalid, .inl ⟨hname, hpositional⟩⟩
      · cases h
    · split at h
      · cases h
      · cases h
        exact fun _ hvalue => (by cases hvalue)
  · split at h
    · cases h
    · cases h
      exact fun _ hvalue => (by cases hvalue)

/-- The values of a schema of two parameters. -/
theorem parse_pair {f g : Field} {values : List Parsed}
    (h : parse syn [f, g] positional = some values) :
  ∃ x y, values = [x, y] ∧ parseField syn positional f = some x ∧
    parseField syn positional g = some y
  := by
  rw [parse] at h
  split at h
  · cases h
  · rw [List.mapM_cons, List.mapM_cons, List.mapM_nil] at h
    obtain ⟨x, hx, h⟩ := Option.bind_eq_some_iff.mp h
    obtain ⟨ys, hys, h⟩ := Option.bind_eq_some_iff.mp h
    obtain ⟨y, hy, hys⟩ := Option.bind_eq_some_iff.mp hys
    cases hys
    cases h
    exact ⟨x, y, rfl, hx, hy⟩

theorem Parsed.mem_values_of_asMany (h : parsed.asMany = some values) :
  parsed.values = values
  := by
  cases parsed with
  | absent => cases h
  | one value => cases h
  | many values =>
      cases h
      rfl

theorem Parsed.mem_values_of_asOne (h : parsed.asOne = some value) :
  value ∈ parsed.values
  := by
  cases parsed with
  | absent => cases h
  | one value =>
      cases h
      exact List.mem_singleton_self _
  | many values => cases h

variable {p : RepoPermission}

/-- The collections of a parsed permission were given and are valid. -/
theorem RepoPermission.fromSyntax_sound (h : fromSyntax syn = some p) :
  ∀ c ∈ p.collection, isNsidOrWildcard c = true ∧
    syn.Gives (ascii "collection") (ascii "collection") c
  := by
  obtain ⟨values, hparse, h⟩ := Option.bind_eq_some_iff.mp h
  obtain ⟨x, y, rfl, hx, -⟩ := parse_pair hparse
  obtain ⟨collection, hcollection, h⟩ := Option.bind_eq_some_iff.mp h
  obtain ⟨action, -, h⟩ := Option.bind_eq_some_iff.mp h
  cases h
  intro c hc
  rw [← Parsed.mem_values_of_asMany hcollection] at hc
  exact parseField_sound hx c hc

/-- The methods and the audience of a parsed permission were given and are valid. -/
theorem RpcPermission.fromSyntax_sound {p : RpcPermission} (h : fromSyntax url syn = some p) :
  (∀ l ∈ p.lxm, isNsidOrWildcard l = true ∧ syn.Gives (ascii "lxm") (ascii "lxm") l) ∧
    isAud url p.aud = true ∧ syn.Gives (ascii "lxm") (ascii "aud") p.aud
  := by
  obtain ⟨values, hparse, h⟩ := Option.bind_eq_some_iff.mp h
  obtain ⟨x, y, rfl, hx, hy⟩ := parse_pair hparse
  obtain ⟨lxm, hlxm, h⟩ := Option.bind_eq_some_iff.mp h
  obtain ⟨aud, haud, h⟩ := Option.bind_eq_some_iff.mp h
  split at h
  · cases h
  · cases h
    refine ⟨fun l hl => ?_, parseField_sound hy _ (Parsed.mem_values_of_asOne haud)⟩
    dsimp only at hl
    rw [← Parsed.mem_values_of_asMany hlxm] at hl
    exact parseField_sound hx l hl

/-- The audience of an include scope is a reference to a service. -/
theorem IncludeScope.isAtprotoDidRef_of_fromStr {value aud : Bytes} {scope : IncludeScope}
    (h : fromStr url value = some scope) (haud : scope.aud = some aud) :
  isAtprotoDidRef url aud = true
  := by
  obtain ⟨syn, -, h⟩ := Option.bind_eq_some_iff.mp h
  obtain ⟨values, hparse, h⟩ := Option.bind_eq_some_iff.mp h
  obtain ⟨x, y, rfl, -, hy⟩ := parse_pair hparse
  obtain ⟨nsid, -, h⟩ := Option.bind_eq_some_iff.mp h
  obtain ⟨aud', haud', h⟩ := Option.bind_eq_some_iff.mp h
  cases h
  dsimp only at haud
  subst haud
  unfold audOf at haud'
  split at haud'
  · cases haud'
  · obtain ⟨value, hvalue, heq⟩ := Option.map_eq_some_iff.mp haud'
    cases heq
    exact (parseField_sound hy _ (Parsed.mem_values_of_asOne hvalue)).1

/-! ### Rendered permissions -/

theorem mem_of_mem_sortedUnique (h : v ∈ sortedUnique values) :
  v ∈ values
  := by
  have hsorted := (List.destutter_sublist (· ≠ ·) _).subset h
  exact (List.mem_insertionSort _).mp hsorted

/-- What holds of a rendered permission: its positional parameter is one of `values`, and so is
every occurrence of the parameter `key`. -/
structure Renders (url : UrlLibrary) (resource key : Bytes) (values : List Bytes) (scope : Bytes)
    (positional : Option Bytes) (params : List (Bytes × Bytes)) : Prop where
  eq_format : scope = format url resource positional params
  positional_mem : ∀ v, positional = some v → v ∈ values
  mem : ∀ v, (key, v) ∈ params → v ∈ values

theorem RepoPermission.mem_of_mem_collections (h : c ∈ p.collections) :
  c ∈ p.collection
  := by
  unfold collections at h
  split at h
  · rename_i one hone
    rw [hone]
    exact h
  · split at h
    · rename_i hany
      obtain ⟨c', hc', heq⟩ := List.any_eq_true.mp hany
      rw [List.mem_singleton.mp h, ← beq_iff_eq.mp heq]
      exact hc'
    · exact mem_of_mem_sortedUnique h

theorem RpcPermission.mem_of_mem_methods {p : RpcPermission} (h : l ∈ p.methods) :
  l ∈ p.lxm
  := by
  unfold methods at h
  split at h
  · rename_i hany
    obtain ⟨l', hl', heq⟩ := List.any_eq_true.mp hany.2
    rw [List.mem_singleton.mp h, ← beq_iff_eq.mp heq]
    exact hl'
  · exact mem_of_mem_sortedUnique h

theorem RepoPermission.mem_actionParams {param : Bytes × Bytes} (h : param ∈ p.actionParams) :
  param.1 = ascii "action" ∧ utf8 param.2 = true
  := by
  unfold actionParams at h
  split at h
  · obtain ⟨action, _, rfl⟩ := List.mem_map.mp h
    refine ⟨rfl, ?_⟩
    cases action with
    | create => rfl
    | update => rfl
    | delete => rfl
  · cases h

theorem RepoPermission.toScope_renders (url : UrlLibrary) (hp : ∀ c ∈ p.collection, utf8 c = true) :
  ∃ positional params, Renders url (ascii "repo") (ascii "collection") p.collection (p.toScope url)
      positional params ∧ WellFormed params
  := by
  have haction : ∀ v, (ascii "collection", v) ∉ p.actionParams := by
    intro v h
    have hkey : ascii "collection" = ascii "action" := (mem_actionParams h).1
    exact absurd hkey (by decide)
  unfold toScope
  split
  · rename_i one hone
    have hmem : one ∈ p.collection := mem_of_mem_collections (by rw [hone]; simp)
    refine ⟨_, _, ⟨rfl, ?_, ?_⟩, ?_⟩
    · rintro v ⟨⟩
      exact hmem
    · exact fun v h => absurd h (haction v)
    · intro param h
      obtain ⟨hkey, hvalue⟩ := mem_actionParams h
      rw [hkey]
      exact ⟨rfl, hvalue⟩
  · refine ⟨_, _, ⟨rfl, fun v h => (by cases h), ?_⟩, ?_⟩
    · intro v h
      rcases List.mem_append.mp h with h | h
      · obtain ⟨c, hc, heq⟩ := List.mem_map.mp h
        cases heq
        exact mem_of_mem_collections hc
      · exact absurd h (haction v)
    · intro param h
      rcases List.mem_append.mp h with h | h
      · obtain ⟨c, hc, rfl⟩ := List.mem_map.mp h
        exact ⟨rfl, hp c (mem_of_mem_collections hc)⟩
      · obtain ⟨hkey, hvalue⟩ := mem_actionParams h
        rw [hkey]
        exact ⟨rfl, hvalue⟩

theorem RpcPermission.toScope_renders (url : UrlLibrary) {p : RpcPermission}
    (hp : ∀ l ∈ p.lxm, utf8 l = true) (haud : utf8 p.aud = true) :
  ∃ positional params, Renders url (ascii "rpc") (ascii "lxm") p.lxm (p.toScope url)
      positional params ∧ WellFormed params ∧ ∀ v, (ascii "aud", v) ∈ params → v = p.aud
  := by
  unfold toScope
  split
  · rename_i one hone
    have hmem : one ∈ p.lxm := mem_of_mem_methods (by rw [hone]; simp)
    refine ⟨_, _, ⟨rfl, ?_, ?_⟩, ?_, ?_⟩
    · rintro v ⟨⟩
      exact hmem
    · intro v h
      have hkey : ascii "lxm" = ascii "aud" := congrArg Prod.fst (List.mem_singleton.mp h)
      exact absurd hkey (by decide)
    · intro param h
      rw [List.mem_singleton.mp h]
      exact ⟨rfl, haud⟩
    · intro v h
      exact congrArg Prod.snd (List.mem_singleton.mp h)
  · refine ⟨_, _, ⟨rfl, fun v h => (by cases h), ?_⟩, ?_, ?_⟩
    · intro v h
      rcases List.mem_append.mp h with h | h
      · obtain ⟨l, hl, heq⟩ := List.mem_map.mp h
        cases heq
        exact mem_of_mem_methods hl
      · have hkey : ascii "lxm" = ascii "aud" := congrArg Prod.fst (List.mem_singleton.mp h)
        exact absurd hkey (by decide)
    · intro param h
      rcases List.mem_append.mp h with h | h
      · obtain ⟨l, hl, rfl⟩ := List.mem_map.mp h
        exact ⟨rfl, hp l (mem_of_mem_methods hl)⟩
      · rw [List.mem_singleton.mp h]
        exact ⟨rfl, haud⟩
    · intro v h
      rcases List.mem_append.mp h with h | h
      · obtain ⟨l, hl, heq⟩ := List.mem_map.mp h
        have hkey : ascii "lxm" = ascii "aud" := congrArg Prod.fst heq
        exact absurd hkey (by decide)
      · exact congrArg Prod.snd (List.mem_singleton.mp h)

/-- What a rendered permission gives when it is read back was rendered. -/
theorem gives_format (hreads : url.ReadsForms decode) {resource positionalName name value : Bytes}
    {positional : Option Bytes} {params : List (Bytes × Bytes)}
    (hpositional : ∀ v, positional = some v → utf8 v = true) (hparams : WellFormed params)
    (hsyn : Syntax.fromScope url (format url resource positional params) resource = some syn)
    (h : syn.Gives positionalName name value) :
  (name = positionalName ∧ positional = some value) ∨ (name, value) ∈ params
  := by
  rw [fromScope_format hreads hpositional hparams] at hsyn
  cases hsyn
  rcases h with h | ⟨param, hparam, hvalue⟩
  · exact .inl h
  · rcases mem_of_mem_occurrences hparam hvalue with h | ⟨_, h, _⟩
    · exact .inr h
    · cases h

theorem fromStr_repo (h : resourceOf value = ascii "repo") :
  AtprotoScope.fromStr url value
    = (Syntax.fromScope url value (ascii "repo")).bind fun syn =>
        (RepoPermission.fromSyntax syn).map .repo
  := by
  have hne : ∀ s : String, resourceOf (ascii s) ≠ ascii "repo" → value ≠ ascii s := by
    rintro s hs rfl
    exact hs h
  rw [AtprotoScope.fromStr, if_neg (hne _ (by decide)), if_neg (hne _ (by decide)),
    if_neg (hne _ (by decide)), if_neg (hne _ (by decide)), h]
  rfl

theorem fromStr_rpc (h : resourceOf value = ascii "rpc") :
  AtprotoScope.fromStr url value
    = (Syntax.fromScope url value (ascii "rpc")).bind fun syn =>
        (RpcPermission.fromSyntax url syn).map .rpc
  := by
  have hne : ∀ s : String, resourceOf (ascii s) ≠ ascii "rpc" → value ≠ ascii s := by
    rintro s hs rfl
    exact hs h
  rw [AtprotoScope.fromStr, if_neg (hne _ (by decide)), if_neg (hne _ (by decide)),
    if_neg (hne _ (by decide)), if_neg (hne _ (by decide)), h]
  rfl

/-- What a rendered `repo` permission parses to. -/
theorem RepoPermission.reparse (hreads : url.ReadsForms decode)
    (hp : ∀ c ∈ p.collection, utf8 c = true) {s : AtprotoScope}
    (h : AtprotoScope.fromStr url (p.toScope url) = some s) :
  ∃ p', s = .repo p' ∧ ∀ c ∈ p'.collection, c ∈ p.collection
  := by
  obtain ⟨positional, params, hrenders, hparams⟩ := toScope_renders url hp
  rw [hrenders.eq_format, fromStr_repo (resourceOf_format (by decide +kernel))] at h
  obtain ⟨syn, hsyn, h⟩ := Option.bind_eq_some_iff.mp h
  obtain ⟨p', hp', rfl⟩ := Option.map_eq_some_iff.mp h
  refine ⟨p', rfl, fun c hc => ?_⟩
  have hgives := (fromSyntax_sound hp' c hc).2
  rcases gives_format hreads (fun v hv => hp v (hrenders.positional_mem v hv)) hparams hsyn hgives
    with ⟨_, hpositional⟩ | hmem
  · exact hrenders.positional_mem c hpositional
  · exact hrenders.mem c hmem

/-- What a rendered `rpc` permission parses to. -/
theorem RpcPermission.reparse (hreads : url.ReadsForms decode) {p : RpcPermission}
    (hp : ∀ l ∈ p.lxm, utf8 l = true) (haud : utf8 p.aud = true) {s : AtprotoScope}
    (h : AtprotoScope.fromStr url (p.toScope url) = some s) :
  ∃ p', s = .rpc p' ∧ p'.aud = p.aud ∧ ∀ l ∈ p'.lxm, l ∈ p.lxm
  := by
  obtain ⟨positional, params, hrenders, hparams, hauds⟩ := toScope_renders url hp haud
  rw [hrenders.eq_format, fromStr_rpc (resourceOf_format (by decide +kernel))] at h
  obtain ⟨syn, hsyn, h⟩ := Option.bind_eq_some_iff.mp h
  obtain ⟨p', hp', rfl⟩ := Option.map_eq_some_iff.mp h
  obtain ⟨hlxm, -, haud'⟩ := fromSyntax_sound hp'
  have hgives {name value : Bytes} (h : syn.Gives (ascii "lxm") name value) :=
    gives_format hreads (fun v hv => hp v (hrenders.positional_mem v hv)) hparams hsyn h
  refine ⟨p', rfl, ?_, fun l hl => ?_⟩
  · rcases hgives haud' with ⟨hname, _⟩ | hmem
    · exact absurd hname (by decide)
    · exact hauds _ hmem
  · rcases hgives (hlxm l hl).2 with ⟨_, hpositional⟩ | hmem
    · exact hrenders.positional_mem l hpositional
    · exact hrenders.mem l hmem

end Shrike.OAuth
