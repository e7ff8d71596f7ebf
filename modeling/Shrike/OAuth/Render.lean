import Shrike.OAuth.Permission

/-!
# Rendered scopes

A rendered scope splits into the parameters that it was rendered from, whatever bytes they
contain, and contains no space.
-/

/-!
## Include scopes

An include scope asks for the permissions of a permission set. The authorization server resolves
the set and replaces the include scope by the permissions that it grants.
-/

namespace Shrike.OAuth

open Bytes

variable {ν : Type}

/-- One permission of a permission set: a resource and its parameters. -/
structure LexPermission (ν : Type) where
  resource : Bytes
  params : List (Bytes × Json ν)

/-- The permissions of a permission set. -/
structure PermissionSet (ν : Type) where
  permissions : List (LexPermission ν)

/-- A permission that a permission set may grant. -/
inductive IncludedPermission where
  | repo (p : RepoPermission)
  | rpc (p : RpcPermission)

/-- Render the permission. -/
def IncludedPermission.toScope (url : UrlLibrary) : IncludedPermission → Bytes
  | .repo p => p.toScope url
  | .rpc p => p.toScope url

/-- The value of a field of an object. -/
def field (params : List (Bytes × Json ν)) (key : Bytes) : Option (Json ν) :=
  (params.find? (·.1 == key)).map (·.2)

namespace IncludeScope

/-- Whether an NSID is under the namespace of the set. -/
def isParentAuthorityOf (scope : IncludeScope) (nsid : Bytes) : Bool :=
  match rfind (char '.') scope.nsid with
  | none => false
  | some groupEnd =>
      nsid ≠ ascii "*" && groupEnd + 1 < nsid.length &&
        nsid.take (groupEnd + 1) == scope.nsid.take (groupEnd + 1)

/-- The parameters of an `rpc` permission of the set, with the inherited audience. -/
def rpcSyntax (scope : IncludeScope) (params : List (Bytes × Json ν)) : Syntax :=
  match field params (ascii "aud"), field params (ascii "inheritAud"), scope.aud with
  | none, some (.bool true), some inherited =>
      ((Syntax.fromLexicon params).remove (ascii "inheritAud")).set (ascii "aud") (.str inherited)
  | _, _, _ => Syntax.fromLexicon params

/-- Whether an audience is given that is not the wildcard. -/
def namesAud (params : List (Bytes × Json ν)) : Bool :=
  match field params (ascii "aud") with
  | none => false
  | some (.string aud) => aud ≠ ascii "*"
  | some _ => true

/-- The permission that one permission of the set grants. -/
def included (url : UrlLibrary) (scope : IncludeScope) (permission : LexPermission ν) :
    Option IncludedPermission :=
  if permission.resource = ascii "repo" then do
    let p ← RepoPermission.fromSyntax (Syntax.fromLexicon permission.params)
    if p.collection.all scope.isParentAuthorityOf then some (.repo p) else none
  else if permission.resource = ascii "rpc" then
    if namesAud permission.params then none
    else do
      let p ← RpcPermission.fromSyntax url (scope.rpcSyntax permission.params)
      if p.lxm.all scope.isParentAuthorityOf then some (.rpc p) else none
  else none

/-- The permissions that the set grants. -/
def toPermissions (url : UrlLibrary) (scope : IncludeScope) (set : PermissionSet ν) :
    List IncludedPermission :=
  set.permissions.filterMap (scope.included url)

/-- The permissions that the set grants, rendered. -/
def toScopes (url : UrlLibrary) (scope : IncludeScope) (set : PermissionSet ν) : List Bytes :=
  (scope.toPermissions url set).map (·.toScope url)

end IncludeScope

/-! ### Expansion -/

/-- Resolve the set of every distinct NSID of the include scopes. The error is the NSID that does
not resolve. -/
def resolveSets (resolve : Bytes → Option (PermissionSet ν)) :
    (sets : List (Bytes × PermissionSet ν)) → List IncludeScope →
      Except Bytes (List (Bytes × PermissionSet ν))
  | sets, [] => .ok sets
  | sets, scope :: scopes =>
      if sets.any (·.1 == scope.nsid) then resolveSets resolve sets scopes
      else
        match resolve scope.nsid with
        | none => .error scope.nsid
        | some set => resolveSets resolve (sets ++ [(scope.nsid, set)]) scopes

/-- The include scopes among the values of a scope. -/
def includesOf (url : UrlLibrary) (scope : Bytes) : List IncludeScope :=
  (scope.splitOn (char ' ')).filterMap (IncludeScope.fromStr url)

/-- The other values of a scope. -/
def othersOf (url : UrlLibrary) (scope : Bytes) : List Bytes :=
  (scope.splitOn (char ' ')).filter fun value => (IncludeScope.fromStr url value).isNone

/-- Replace the include scopes of a scope by the permissions that their sets grant. The resolver
is asked once for every distinct NSID, so it is given as a function of the NSID. -/
def expandIncludeScopes (url : UrlLibrary) (scope : Bytes)
    (resolve : Bytes → Option (PermissionSet ν)) : Except Bytes Bytes :=
  let includes := includesOf url scope
  if includes.isEmpty then .ok scope
  else do
    let sets ← resolveSets resolve [] includes
    let expanded := includes.flatMap fun scope =>
      match sets.find? (·.1 == scope.nsid) with
      | some (_, set) => scope.toScopes url set
      | none => []
    .ok (join (char ' ') (expanded ++ othersOf url scope))

end Shrike.OAuth

/-! ## Rendered scopes -/

namespace Shrike.OAuth

open Bytes

/-! ### Components -/

/-- The bytes that can occur in a rendered component. -/
def safeByte (b : UInt8) : Bool :=
  isAsciiAlphanumeric b || (ascii ":/,@%+*-._!~'()").contains b

variable {b c : UInt8} {query readable : Bool} {k v bs key value resource : Bytes}
  {positional : Option Bytes}

theorem safeByte_of_keepsByte (h : keepsByte query readable b = true) :
  safeByte b = true
  := by
  have hsub : ∀ s : String, (∀ c ∈ ascii s, c ∈ ascii ":/,@%+*-._!~'()") →
      (ascii s).contains b = true → safeByte b = true := by
    intro s hs hb
    rw [safeByte, Bool.or_eq_true]
    exact .inr (List.contains_iff_mem.mpr (hs b (List.contains_iff_mem.mp hb)))
  rw [keepsByte, Bool.or_eq_true, Bool.or_eq_true, Bool.or_eq_true] at h
  rcases h with ((h | h) | h) | h
  · rw [safeByte, h]
    rfl
  · exact hsub ":/,@" (by decide +kernel) h
  · exact hsub "%+" (by decide +kernel) (Bool.and_eq_true_iff.mp h).2
  · cases query with
    | true => exact hsub "*-._" (by decide +kernel) h
    | false => exact hsub "-_.!~*'()+" (by decide +kernel) h

theorem safeByte_upperHex {n : ℕ} (h : n < 16) :
  safeByte (upperHex n) = true
  := by
  have hall : ∀ n : Fin 16, safeByte (upperHex n) = true := by decide
  exact hall ⟨n, h⟩

theorem safeByte_of_mem_escape (h : c ∈ escape b) :
  safeByte c = true
  := by
  have hb : b.toNat < 256 := b.toNat_lt
  rw [escape, List.mem_cons, List.mem_cons, List.mem_singleton] at h
  rcases h with rfl | rfl | rfl
  · decide
  · exact safeByte_upperHex (by omega)
  · exact safeByte_upperHex (by omega)

theorem safeByte_of_mem_encode (h : c ∈ encode value query readable) :
  safeByte c = true
  := by
  obtain ⟨b, _, hc⟩ := List.mem_flatMap.mp h
  rw [encodeByte] at hc
  split at hc
  · rename_i hkeeps
    rw [List.mem_singleton.mp hc]
    exact safeByte_of_keepsByte hkeeps
  · split at hc
    · rw [List.mem_singleton.mp hc]
      decide
    · exact safeByte_of_mem_escape hc

theorem encode_cons (b : UInt8) (value : Bytes) (query readable : Bool) :
  encode (b :: value) query readable = encodeByte query readable b ++ encode value query readable
  := List.flatMap_cons

/-- The escaped form of a component of the query decodes to it. -/
theorem formUnescape_encode (value : Bytes) :
  formUnescape (encode value true false) = value
  := by
  induction value with
  | nil => rfl
  | cons b value ih =>
      rw [encode_cons, encodeByte]
      split
      · rename_i hkeeps
        have hplus : b ≠ char '+' := by
          rintro rfl
          revert hkeeps
          decide
        have hpercent : b ≠ char '%' := by
          rintro rfl
          revert hkeeps
          decide
        rw [List.singleton_append, formUnescape_cons hplus hpercent, ih]
      · split
        · rename_i hspace
          rw [Bool.true_and, beq_iff_eq] at hspace
          rw [List.singleton_append, formUnescape_plus, ih, hspace]
        · rw [formUnescape_escape_append, ih]

/-- The escaped form of a positional parameter decodes to it. -/
theorem unescape_encode (value : Bytes) :
  unescape (encode value false false) = some value
  := by
  induction value with
  | nil => rfl
  | cons b value ih =>
      rw [encode_cons, encodeByte]
      split
      · rename_i hkeeps
        have hpercent : b ≠ char '%' := by
          rintro rfl
          revert hkeeps
          decide
        rw [List.singleton_append, unescape_cons hpercent, ih]
        rfl
      · rw [Bool.false_and, if_neg Bool.false_ne_true, unescape_escape_append, ih]
        rfl

variable {url : UrlLibrary} {decode : Bytes → Bytes}

theorem safeByte_of_mem_pushComponent (h : c ∈ pushComponent url value query) :
  safeByte c = true
  := by
  rw [pushComponent] at h
  cases query with
  | true =>
      rw [if_pos rfl] at h
      split at h
      · exact safeByte_of_mem_encode h
      · exact safeByte_of_mem_encode h
  | false =>
      rw [if_neg Bool.false_ne_true] at h
      split at h
      · exact safeByte_of_mem_encode h
      · exact safeByte_of_mem_encode h

/-- A byte that cannot occur in a rendered component. -/
theorem not_mem_pushComponent (hc : safeByte c = false) :
  c ∉ pushComponent url value query
  := by
  intro h
  rw [safeByte_of_mem_pushComponent h] at hc
  cases hc

theorem encode_eq_nil (h : encode value query readable = []) :
  value = []
  := by
  cases value with
  | nil => rfl
  | cons b value =>
      rw [encode_cons, List.append_eq_nil_iff, encodeByte] at h
      obtain ⟨h, -⟩ := h
      split at h
      · cases h
      · split at h
        · cases h
        · cases h

/-- A form of one part without value. -/
theorem formPairs_component (hbs : ∀ c ∈ bs, safeByte c = true) (hne : bs ≠ []) :
  formPairs bs = [(bs, [])]
  := by
  have hnot : ∀ c, safeByte c = false → c ∉ bs := by
    intro c hc hmem
    rw [hbs c hmem] at hc
    cases hc
  rw [formPairs, List.splitOn_eq_singleton (hnot _ (by decide))]
  have hfilter : [bs].filter (· ≠ []) = [bs] := by simp [hne]
  rw [hfilter, List.map_singleton, formPair, splitOnce_eq_none (hnot _ (by decide))]
  rfl

/-- A rendered component of the query decodes to it. -/
theorem decode_pushComponent (hreads : url.ReadsForms decode) (hvalue : utf8 value = true) :
  decode (pushComponent url value true) = value
  := by
  rw [pushComponent, if_pos rfl]
  split
  · rename_i hdecoded
    by_cases hne : encode value true true = []
    · rw [hne, encode_eq_nil hne]
      exact hreads.decode_eq [] rfl
    · rw [hreads.formParse_eq, formPairs_component (fun _ => safeByte_of_mem_encode) hne] at hdecoded
      exact hdecoded
  · have hunescape := formUnescape_encode value
    rw [hreads.decode_eq _ (by rw [hunescape]; exact hvalue), hunescape]

/-- A rendered positional parameter decodes to it. -/
theorem decodeUriComponent_pushComponent (hvalue : utf8 value = true) :
  decodeUriComponent (pushComponent url value false) = some value
  := by
  rw [pushComponent, if_neg Bool.false_ne_true]
  split
  · rename_i hdecoded
    cases hreadable : decodeUriComponent (encode value false true) with
    | none =>
        rw [hreadable] at hdecoded
        subst hdecoded
        cases hreadable
    | some decoded =>
        rw [hreadable] at hdecoded
        rw [← hdecoded]
        rfl
  · rw [decodeUriComponent, unescape_encode]
    simp [hvalue]

/-! ### Parameters -/

/-- One named parameter in a query. -/
def queryPart (url : UrlLibrary) (param : Bytes × Bytes) : Bytes :=
  pushComponent url param.1 true ++ char '=' :: pushComponent url param.2 true

theorem pushParams_cons (sep : UInt8) (param : Bytes × Bytes) (params : List (Bytes × Bytes)) :
  pushParams url sep (param :: params)
    = sep :: join (char '&') ((param :: params).map (queryPart url))
  := by
  induction params generalizing sep param with
  | nil =>
      rw [pushParams, pushParams, List.append_nil, List.map_singleton, join_singleton]
      rfl
  | cons next params ih =>
      rw [pushParams, ih, List.map_cons, List.map_cons, List.map_cons, join_cons_cons]
      rfl

theorem not_mem_queryPart {param : Bytes × Bytes} (hc : safeByte c = false) (hne : c ≠ char '=') :
  c ∉ queryPart url param
  := by
  intro h
  rcases List.mem_append.mp h with h | h
  · exact not_mem_pushComponent hc h
  · rcases List.mem_cons.mp h with h | h
    · exact hne h
    · exact not_mem_pushComponent hc h

variable {pairs params : List (Bytes × Bytes)}

theorem not_mem_query (hc : safeByte c = false) (hne : c ≠ char '=') (hsep : c ≠ char '&') :
  c ∉ join (char '&') (params.map (queryPart url))
  := by
  intro h
  rcases mem_join h with h | ⟨part, hpart, h⟩
  · exact hsep h
  · obtain ⟨param, _, rfl⟩ := List.mem_map.mp hpart
    exact not_mem_queryPart hc hne h

theorem formPair_queryPart (param : Bytes × Bytes) :
  formPair (queryPart url param) = (pushComponent url param.1 true, pushComponent url param.2 true)
  := by
  rw [formPair, queryPart, splitOnce_append (not_mem_pushComponent (by decide))]
  rfl

theorem formPairs_query (params : List (Bytes × Bytes)) :
  formPairs (join (char '&') (params.map (queryPart url)))
    = params.map fun param => (pushComponent url param.1 true, pushComponent url param.2 true)
  := by
  cases params with
  | nil => rfl
  | cons param params =>
      have hsplit : (join (char '&') ((param :: params).map (queryPart url))).splitOn (char '&')
          = (param :: params).map (queryPart url) := by
        refine List.splitOn_intercalate _ ?_ (by simp)
        intro part hpart
        obtain ⟨param, _, rfl⟩ := List.mem_map.mp hpart
        exact not_mem_queryPart (by decide) (by decide)
      have hfilter : ((param :: params).map (queryPart url)).filter (· ≠ [])
          = (param :: params).map (queryPart url) := by
        rw [List.filter_eq_self]
        intro part hpart
        obtain ⟨param, _, rfl⟩ := List.mem_map.mp hpart
        simp [queryPart]
      rw [formPairs, hsplit, hfilter, List.map_map]
      exact List.map_congr_left fun param _ => formPair_queryPart param

/-- Every text of some parameters is well-formed. -/
def WellFormed (params : List (Bytes × Bytes)) : Prop :=
  ∀ param ∈ params, utf8 param.1 = true ∧ utf8 param.2 = true

/-- The rendered query is read as the parameters that it was rendered from. -/
theorem formParse_query (hreads : url.ReadsForms decode) (hparams : WellFormed params) :
  url.formParse (join (char '&') (params.map (queryPart url))) = params
  := by
  have hdecode : ∀ param ∈ params, (decode (pushComponent url param.1 true),
      decode (pushComponent url param.2 true)) = id param := by
    intro param hparam
    obtain ⟨hkey, hvalue⟩ := hparams param hparam
    rw [decode_pushComponent hreads hkey, decode_pushComponent hreads hvalue]
    rfl
  rw [hreads.formParse_eq, formPairs_query, List.map_map]
  exact (List.map_congr_left hdecode).trans (List.map_id params)

/-! ### Scopes -/

/-- The positional parameter of a rendered scope. -/
def positionalPart (url : UrlLibrary) : Option Bytes → Bytes
  | some positional => char ':' :: pushComponent url positional false
  | none => []

theorem format_eq (resource : Bytes) (positional : Option Bytes) (params : List (Bytes × Bytes)) :
  format url resource positional params
    = resource ++ (positionalPart url positional ++ pushParams url (char '?') params)
  := by
  unfold format
  rw [List.append_assoc]
  cases positional with
  | none => rfl
  | some positional => rfl

theorem stripPrefix_of_ne (h : b ≠ c) :
  stripPrefix [c] (b :: bs) = none
  := by
  rw [stripPrefix, if_neg]
  intro hpre
  rw [List.isPrefixOf, Bool.and_eq_true, beq_iff_eq] at hpre
  exact h hpre.1.symm

/-- A rendered scope splits into its positional parameter and its query. -/
theorem splitScope_render (positional : Option Bytes) (params : List (Bytes × Bytes)) :
  ∃ query, splitScope (positionalPart url positional ++ pushParams url (char '?') params)
      = some (positional.map (pushComponent url · false), query) ∧
    query.getD [] = join (char '&') (params.map (queryPart url))
  := by
  cases params with
  | nil =>
      refine ⟨none, ?_, rfl⟩
      rw [pushParams, List.append_nil, splitScope]
      cases positional with
      | none => rfl
      | some positional =>
          have hstrip := stripPrefix_append [char ':'] (pushComponent url positional false)
          rw [List.singleton_append] at hstrip
          rw [positionalPart, hstrip]
          dsimp only
          rw [splitOnce_eq_none (not_mem_pushComponent (by decide))]
          rfl
  | cons param params =>
      refine ⟨some (join (char '&') ((param :: params).map (queryPart url))), ?_, rfl⟩
      rw [pushParams_cons, splitScope]
      generalize join (char '&') ((param :: params).map (queryPart url)) = query
      cases positional with
      | none =>
          have hstrip := stripPrefix_append [char '?'] query
          rw [List.singleton_append] at hstrip
          rw [positionalPart, List.nil_append, stripPrefix_of_ne (by decide), hstrip]
          rfl
      | some positional =>
          have hstrip := stripPrefix_append [char ':']
            (pushComponent url positional false ++ char '?' :: query)
          rw [List.singleton_append] at hstrip
          rw [positionalPart, List.cons_append, hstrip]
          dsimp only
          rw [splitOnce_append (not_mem_pushComponent (by decide))]
          rfl

/-- A rendered scope is read as the parameters that it was rendered from. -/
theorem fromScope_format (hreads : url.ReadsForms decode)
    (hpositional : ∀ value, positional = some value → utf8 value = true)
    (hparams : WellFormed params) :
  Syntax.fromScope url (format url resource positional params) resource
    = some { positional, params := params.foldl (fun ps pair => addOccurrence pair.1 pair.2 ps) [] }
  := by
  obtain ⟨query, hsplit, hquery⟩ := splitScope_render positional params
  have hnot : char '?' ∉ join (char '&') (params.map (queryPart url)) :=
    not_mem_query (by decide) (by decide) (by decide)
  have hstrip : (stripPrefix [char '?'] (query.getD [])).getD (query.getD []) = query.getD [] := by
    rw [hquery]
    cases hjoin : join (char '&') (params.map (queryPart url)) with
    | nil => rfl
    | cons b bs =>
        have hb : b ≠ char '?' := by
          rintro rfl
          rw [hjoin] at hnot
          exact hnot List.mem_cons_self
        rw [stripPrefix_of_ne hb]
        rfl
  rw [Syntax.fromScope, format_eq, stripPrefix_append]
  dsimp only [bind, Option.bind]
  rw [hsplit]
  dsimp only [bind, Option.bind]
  rw [hstrip, hquery, formParse_query hreads hparams]
  cases positional with
  | none => rfl
  | some positional =>
      dsimp only [Option.map]
      rw [decodeUriComponent_pushComponent (hpositional positional rfl)]

/-- A rendered scope contains no space. -/
theorem not_mem_format (hresource : char ' ' ∉ resource) :
  char ' ' ∉ format url resource positional params
  := by
  rw [format_eq]
  intro h
  rcases List.mem_append.mp h with h | h
  · exact hresource h
  · rcases List.mem_append.mp h with h | h
    · cases positional with
      | none => cases h
      | some positional =>
          rcases List.mem_cons.mp h with h | h
          · revert h
            decide
          · exact not_mem_pushComponent (by decide) h
    · cases params with
      | nil => cases h
      | cons param params =>
          rw [pushParams_cons] at h
          rcases List.mem_cons.mp h with h | h
          · revert h
            decide
          · exact not_mem_query (by decide) (by decide) (by decide) h

/-- The resource of a rendered scope. -/
theorem resourceOf_format (hresource : ∀ b ∈ resource, b ≠ char ':' ∧ b ≠ char '?') :
  resourceOf (format url resource positional params) = resource
  := by
  have hall : ∀ b ∈ resource, decide (b ≠ char ':' ∧ b ≠ char '?') = true :=
    fun b hb => decide_eq_true (hresource b hb)
  rw [format_eq, resourceOf, List.takeWhile_append_of_pos hall]
  cases positional with
  | some positional =>
      rw [positionalPart, List.cons_append, List.takeWhile_cons_of_neg (by decide), List.append_nil]
  | none =>
      cases params with
      | nil =>
          show resource ++ [] = resource
          rw [List.append_nil]
      | cons param params =>
          rw [pushParams_cons, positionalPart, List.nil_append,
            List.takeWhile_cons_of_neg (by decide), List.append_nil]

/-! ### Occurrences -/

/-- The values of a parameter. -/
def Param.values : Param → List Bytes
  | .query values => values
  | .str value => [value]
  | .list values => values
  | .invalid => []

theorem mem_addOccurrence {params : List (Bytes × Param)} {param : Param}
    (h : (k, param) ∈ addOccurrence key value params) (hv : v ∈ param.values) :
  (k, v) = (key, value) ∨ ∃ param', (k, param') ∈ params ∧ v ∈ param'.values
  := by
  induction params with
  | nil =>
      rw [addOccurrence, List.mem_singleton] at h
      cases h
      rw [List.mem_singleton.mp hv]
      exact .inl rfl
  | cons first params ih =>
      obtain ⟨k', param'⟩ := first
      unfold addOccurrence at h
      split at h
      · rename_i hkey
        split at h
        · rename_i values
          rcases List.mem_cons.mp h with h | h
          · cases h
            rcases List.mem_append.mp hv with hv | hv
            · exact .inr ⟨_, List.mem_cons_self, hv⟩
            · rw [List.mem_singleton.mp hv, hkey]
              exact .inl rfl
          · exact .inr ⟨param, List.mem_cons_of_mem _ h, hv⟩
        · rcases List.mem_cons.mp h with h | h
          · cases h
            exact .inr ⟨_, List.mem_cons_self, hv⟩
          · rcases List.mem_append.mp h with h | h
            · exact .inr ⟨param, List.mem_cons_of_mem _ h, hv⟩
            · cases List.mem_singleton.mp h
              rw [List.mem_singleton.mp hv]
              exact .inl rfl
      · rcases List.mem_cons.mp h with h | h
        · cases h
          exact .inr ⟨_, List.mem_cons_self, hv⟩
        · rcases ih h with h | ⟨param', hmem, hv⟩
          · exact .inl h
          · exact .inr ⟨param', List.mem_cons_of_mem _ hmem, hv⟩

/-- The values of the parameters of a query are those that occur in it. -/
theorem mem_of_mem_occurrences {param : Param} :
  ∀ {params : List (Bytes × Param)},
    (k, param) ∈ pairs.foldl (fun ps pair => addOccurrence pair.1 pair.2 ps) params →
    v ∈ param.values → (k, v) ∈ pairs ∨ ∃ param', (k, param') ∈ params ∧ v ∈ param'.values
  := by
  induction pairs with
  | nil => exact fun h hv => .inr ⟨param, h, hv⟩
  | cons pair pairs ih =>
      intro params h hv
      rcases ih h hv with h | ⟨param', h, hv⟩
      · exact .inl (List.mem_cons_of_mem _ h)
      · rcases mem_addOccurrence h hv with h | h
        · left
          rw [h]
          exact List.mem_cons_self
        · exact .inr h

end Shrike.OAuth
