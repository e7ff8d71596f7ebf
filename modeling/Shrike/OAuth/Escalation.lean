import Shrike.OAuth.Reparse

/-!
# Include scopes cannot escalate

Whatever a permission set contains, an expanded include scope allows only writes to collections
and calls of methods in the namespace of the set.
-/

namespace Shrike.OAuth

open Bytes

variable {ν : Type} {url : UrlLibrary} {decode : Bytes → Bytes}

/-! ### Namespaces -/

/-- The namespace of an NSID: all of its segments but the last. -/
def namespaceOf (nsid : Bytes) : List Bytes := (nsid.splitOn (char '.')).dropLast

/-- An NSID lies in the namespace of another one. -/
def InNamespace (nsid other : Bytes) : Prop := namespaceOf nsid <+: namespaceOf other

variable {incl scope : IncludeScope}

/-- The namespace test of an include scope. -/
theorem IncludeScope.inNamespace_of_isParentAuthorityOf {nsid : Bytes}
    (h : scope.isParentAuthorityOf nsid = true) :
  InNamespace scope.nsid nsid ∧ nsid ≠ ascii "*"
  := by
  unfold isParentAuthorityOf at h
  split at h
  · cases h
  · rename_i groupEnd hfind
    obtain ⟨group, name, hnsid, hlength, hname⟩ := rfind_eq_some hfind
    simp only [Bool.and_eq_true, decide_eq_true_eq, beq_iff_eq] at h
    obtain ⟨⟨hstar, hlonger⟩, htake⟩ := h
    refine ⟨?_, by simpa using hstar⟩
    have hgroup : nsid.take (groupEnd + 1) = group ++ [char '.'] := by
      rw [htake, hnsid, ← hlength, List.take_length_add_append]
      rfl
    have hsplit : nsid = group ++ char '.' :: nsid.drop (groupEnd + 1) := by
      conv_lhs => rw [← List.take_append_drop (groupEnd + 1) nsid, hgroup]
      rw [List.append_assoc]
      rfl
    rw [InNamespace, namespaceOf, namespaceOf, hnsid, hsplit, List.splitOn_append_cons_self,
      List.splitOn_append_cons_self, List.splitOn_eq_singleton hname, List.dropLast_concat,
      List.dropLast_append_of_ne_nil (List.splitOn_ne_nil _ _)]
    exact List.prefix_append _ _

/-! ### Included permissions -/

/-- A permission of the set is an `rpc` permission for a method and every audience. -/
def PermissionSet.SaysAnyAud (set : PermissionSet ν) (lxm : Bytes) : Prop :=
  ∃ permission ∈ set.permissions, permission.resource = ascii "rpc" ∧
    field permission.params (ascii "aud") = some (.string (ascii "*")) ∧
    ∃ param, (ascii "lxm", param) ∈ (Syntax.fromLexicon permission.params).params ∧
      lxm ∈ param.values

variable {set : PermissionSet ν} {params : List (Bytes × Json ν)} {p : IncludedPermission}

theorem field_isSome_of_mem_fromLexicon {key : Bytes}
    {param : Param} (h : (key, param) ∈ (Syntax.fromLexicon params).params) :
  (field params key).isSome = true
  := by
  obtain ⟨entry, hentry, heq⟩ := List.mem_map.mp h
  cases heq
  have hmem := (List.mem_filter.mp hentry).1
  rw [field, Option.isSome_map, List.find?_isSome]
  exact ⟨entry, hmem, beq_self_eq_true _⟩

/-- What an included permission can be. -/
inductive Contained (url : UrlLibrary) (scope : IncludeScope) (set : PermissionSet ν) :
    IncludedPermission → Prop
  | repo (p : RepoPermission)
      (collection : ∀ c ∈ p.collection, utf8 c = true ∧ scope.isParentAuthorityOf c = true) :
      Contained url scope set (.repo p)
  | rpc (p : RpcPermission)
      (lxm : ∀ l ∈ p.lxm, utf8 l = true ∧ scope.isParentAuthorityOf l = true)
      (utf8_aud : utf8 p.aud = true)
      (aud : (∀ l ∈ p.lxm, set.SaysAnyAud l) ∨ scope.aud = some p.aud) :
      Contained url scope set (.rpc p)

theorem IncludeScope.rpcSyntax_of_aud {aud : Json ν} (h : field params (ascii "aud") = some aud) :
  scope.rpcSyntax params = Syntax.fromLexicon params
  := by
  rw [rpcSyntax, h]

/-- The audience of an included permission is the one of the include scope, unless the set says
otherwise. -/
theorem IncludeScope.aud_of_rpcSyntax {p : RpcPermission} (hnames : namesAud params = false)
    (hp : RpcPermission.fromSyntax url (scope.rpcSyntax params) = some p) :
  field params (ascii "aud") = some (.string (ascii "*")) ∨ scope.aud = some p.aud
  := by
  obtain ⟨-, -, hgives⟩ := RpcPermission.fromSyntax_sound hp
  obtain ⟨param, hparam, haud⟩ := hgives.resolve_left fun h => absurd h.1 (by decide)
  cases hfield : field params (ascii "aud") with
  | some aud =>
      unfold namesAud at hnames
      rw [hfield] at hnames
      cases aud with
      | string aud =>
          simp only [ne_eq, decide_not, Bool.not_eq_eq_eq_not, Bool.not_false,
            decide_eq_true_eq] at hnames
          rw [hnames]
          exact .inl rfl
      | null => cases hnames
      | bool b => cases hnames
      | number n => cases hnames
      | array items => cases hnames
      | object fields => cases hnames
  | none =>
      right
      unfold rpcSyntax at hparam
      rw [hfield] at hparam
      split at hparam
      · rename_i inherited _ hinherited
        rcases List.mem_append.mp hparam with hparam | hparam
        · have := (List.mem_filter.mp hparam).2
          simp at this
        · cases List.mem_singleton.mp hparam
          rw [List.mem_singleton.mp haud, hinherited]
      · have hsome := field_isSome_of_mem_fromLexicon hparam
        rw [hfield] at hsome
        cases hsome

theorem IncludeScope.contained_of_mem (h : p ∈ scope.toPermissions url set) :
  Contained url scope set p
  := by
  obtain ⟨permission, hmem, h⟩ := List.mem_filterMap.mp h
  unfold included at h
  split at h
  · obtain ⟨p, hp, h⟩ := Option.bind_eq_some_iff.mp h
    split at h
    · rename_i hall
      cases h
      refine .repo p fun c hc => ⟨?_, List.all_eq_true.mp hall c hc⟩
      exact utf8_of_isNsidOrWildcard (RepoPermission.fromSyntax_sound hp c hc).1
    · cases h
  · split at h
    · rename_i hresource
      split at h
      · cases h
      · rename_i hnames
        rw [Bool.not_eq_true] at hnames
        obtain ⟨p, hp, h⟩ := Option.bind_eq_some_iff.mp h
        split at h
        · rename_i hall
          cases h
          obtain ⟨hlxm, haud, -⟩ := RpcPermission.fromSyntax_sound hp
          refine .rpc p (fun l hl => ⟨?_, List.all_eq_true.mp hall l hl⟩) (utf8_of_isAud haud) ?_
          · exact utf8_of_isNsidOrWildcard (hlxm l hl).1
          · refine (aud_of_rpcSyntax hnames hp).imp_left fun hany l hl => ?_
            refine ⟨permission, hmem, hresource, hany, ?_⟩
            have hgives := (hlxm l hl).2
            rw [rpcSyntax_of_aud hany] at hgives
            exact hgives.resolve_left fun h => (by cases h.2)
        · cases h
    · cases h

/-- The operations that a permission set can grant through an include scope. -/
def Delegates (scope : IncludeScope) (set : PermissionSet ν) : Operation → Prop
  | .repo collection _ => InNamespace scope.nsid collection
  | .rpc aud lxm => InNamespace scope.nsid lxm ∧ (set.SaysAnyAud lxm ∨ scope.aud = some aud)
  | _ => False

/-- What a rendered permission of the set parses to. -/
theorem Contained.reparse (hreads : url.ReadsForms decode) (hp : Contained url scope set p)
    {s : AtprotoScope} (h : AtprotoScope.fromStr url (p.toScope url) = some s) :
  (∃ p', s = .repo p' ∧ ∀ c ∈ p'.collection, scope.isParentAuthorityOf c = true) ∨
    ∃ p', s = .rpc p' ∧ (∀ l ∈ p'.lxm, scope.isParentAuthorityOf l = true) ∧
      ((∀ l ∈ p'.lxm, set.SaysAnyAud l) ∨ scope.aud = some p'.aud)
  := by
  cases hp with
  | repo p hcollection =>
      obtain ⟨p', rfl, hp'⟩ := RepoPermission.reparse hreads (fun c hc => (hcollection c hc).1) h
      exact .inl ⟨p', rfl, fun c hc => (hcollection c (hp' c hc)).2⟩
  | rpc p hlxm hutf8 haud =>
      obtain ⟨p', rfl, haud', hp'⟩ :=
        RpcPermission.reparse hreads (fun l hl => (hlxm l hl).1) hutf8 h
      refine .inr ⟨p', rfl, fun l hl => (hlxm l (hp' l hl)).2, ?_⟩
      rw [haud']
      exact haud.imp_left fun hany l hl => hany l (hp' l hl)

/-- The resource of a rendered permission of the set. -/
theorem IncludedPermission.resourceOf_toScope (p : IncludedPermission) :
  resourceOf (p.toScope url) = ascii "repo" ∨ resourceOf (p.toScope url) = ascii "rpc"
  := by
  cases p with
  | repo p =>
      left
      show resourceOf (p.toScope url) = ascii "repo"
      unfold RepoPermission.toScope
      split
      · exact resourceOf_format (by decide +kernel)
      · exact resourceOf_format (by decide +kernel)
  | rpc p =>
      right
      show resourceOf (p.toScope url) = ascii "rpc"
      unfold RpcPermission.toScope
      split
      · exact resourceOf_format (by decide +kernel)
      · exact resourceOf_format (by decide +kernel)

theorem IncludedPermission.not_mem_toScope (p : IncludedPermission) :
  char ' ' ∉ p.toScope url
  := by
  cases p with
  | repo p =>
      show char ' ' ∉ p.toScope url
      unfold RepoPermission.toScope
      split
      · exact not_mem_format (by decide)
      · exact not_mem_format (by decide)
  | rpc p =>
      show char ' ' ∉ p.toScope url
      unfold RpcPermission.toScope
      split
      · exact not_mem_format (by decide)
      · exact not_mem_format (by decide)

/-- No rendered permission is a transition scope. -/
theorem IncludedPermission.toScope_ne (p : IncludedPermission) {s : String}
    (hrepo : resourceOf (ascii s) ≠ ascii "repo") (hrpc : resourceOf (ascii s) ≠ ascii "rpc") :
  p.toScope url ≠ ascii s
  := by
  intro h
  rcases @resourceOf_toScope url p with hresource | hresource
  · exact hrepo (h ▸ hresource)
  · exact hrpc (h ▸ hresource)

/-- What a rendered permission of the set allows is in the namespace of the set. -/
theorem Contained.delegates (hreads : url.ReadsForms decode) (hp : Contained url scope set p)
    (hscope : ∀ aud, scope.aud = some aud → isAtprotoDidRef url aud = true) {transition : Bool}
    {op : Operation} (h : ValueAllows url transition (p.toScope url) op) :
  Delegates scope set op
  := by
  have hgeneric := @IncludedPermission.toScope_ne url p "transition:generic" (by decide) (by decide)
  have hemail := @IncludedPermission.toScope_ne url p "transition:email" (by decide) (by decide)
  have hchat := @IncludedPermission.toScope_ne url p "transition:chat.bsky" (by decide) (by decide)
  cases op with
  | account attr action =>
      rcases h with h | ⟨p', hp', _⟩
      · exact hemail h.2.symm
      · rcases hp.reparse hreads hp' with ⟨_, heq, _⟩ | ⟨_, heq, _⟩
        · cases heq
        · cases heq
  | identity attr =>
      obtain ⟨p', hp', _⟩ := h
      rcases hp.reparse hreads hp' with ⟨_, heq, _⟩ | ⟨_, heq, _⟩
      · cases heq
      · cases heq
  | blob mime =>
      rcases h with h | ⟨p', hp', _⟩
      · exact hgeneric h.2.symm
      · rcases hp.reparse hreads hp' with ⟨_, heq, _⟩ | ⟨_, heq, _⟩
        · cases heq
        · cases heq
  | repo collection action =>
      rcases h with h | ⟨p', hp', hmatches⟩
      · exact absurd h.2.symm hgeneric
      · rcases hp.reparse hreads hp' with ⟨p'', heq, hcollection⟩ | ⟨_, heq, _⟩
        · cases heq
          obtain ⟨c, hc, hmatch⟩ := List.any_eq_true.mp (Bool.and_eq_true_iff.mp hmatches).2
          obtain ⟨hin, hne⟩ := IncludeScope.inNamespace_of_isParentAuthorityOf (hcollection c hc)
          rcases Bool.or_eq_true_iff.mp hmatch with hmatch | hmatch
          · exact absurd (beq_iff_eq.mp hmatch) hne
          · rw [← beq_iff_eq.mp hmatch]
            exact hin
        · cases heq
  | rpc aud lxm =>
      rcases h with h | h | ⟨p', hp', hmatches⟩
      · exact absurd h.2.symm hgeneric
      · exact absurd h.2.symm hchat
      · rcases hp.reparse hreads hp' with ⟨_, heq, _⟩ | ⟨p'', heq, hlxm, haud⟩
        · cases heq
        · cases heq
          obtain ⟨hauds, hlxms⟩ := Bool.and_eq_true_iff.mp hmatches
          obtain ⟨l, hl, hmatch⟩ := List.any_eq_true.mp hlxms
          obtain ⟨hin, hne⟩ := IncludeScope.inNamespace_of_isParentAuthorityOf (hlxm l hl)
          have heq : l = lxm := by
            rcases Bool.or_eq_true_iff.mp hmatch with hmatch | hmatch
            · exact absurd (beq_iff_eq.mp hmatch) hne
            · exact beq_iff_eq.mp hmatch
          subst heq
          refine ⟨hin, haud.imp (fun hany => hany l hl) fun haud => ?_⟩
          · rcases Bool.or_eq_true_iff.mp hauds with hauds | hauds
            · exact absurd (beq_iff_eq.mp hauds) (ne_wildcard_of_isAtprotoDidRef (hscope _ haud))
            · rw [haud, beq_iff_eq.mp hauds]

/-! ### Expanded scopes -/

variable {resolve : Bytes → Option (PermissionSet ν)}

theorem resolveSets_sound :
  ∀ {scopes : List IncludeScope} {sets sets' : List (Bytes × PermissionSet ν)},
    resolveSets resolve sets scopes = .ok sets' → (∀ s ∈ sets, resolve s.1 = some s.2) →
    ∀ s ∈ sets', resolve s.1 = some s.2
  | [], sets, sets', h, hsets => by
      cases h
      exact hsets
  | scope :: scopes, sets, sets', h, hsets => by
      rw [resolveSets] at h
      split at h
      · exact resolveSets_sound h hsets
      · split at h
        · cases h
        · rename_i set hset
          refine resolveSets_sound h fun s hs => ?_
          rcases List.mem_append.mp hs with hs | hs
          · exact hsets s hs
          · rw [List.mem_singleton.mp hs]
            exact hset

/-- A value is a permission that the set of an include scope grants. -/
def Introduced (url : UrlLibrary) (scope : Bytes) (resolve : Bytes → Option (PermissionSet ν))
    (value : Bytes) : Prop :=
  ∃ incl ∈ includesOf url scope, ∃ set, resolve incl.nsid = some set ∧
    ∃ p ∈ incl.toPermissions url set, value = p.toScope url

/-- The permissions that an include scope stands for. -/
def permissionsFrom (url : UrlLibrary) (sets : List (Bytes × PermissionSet ν))
    (scope : IncludeScope) : List Bytes :=
  match sets.find? (·.1 == scope.nsid) with
  | some (_, set) => scope.toScopes url set
  | none => []

/-- The values of an expanded scope: the values of the scope that are not include scopes, and
permissions of the sets. -/
theorem expandIncludeScopes_values {scope e : Bytes}
    (h : expandIncludeScopes url scope resolve = .ok e) :
  ∀ value ∈ e.splitOn (char ' '),
    value = [] ∨ value ∈ othersOf url scope ∨ Introduced url scope resolve value
  := by
  unfold expandIncludeScopes at h
  dsimp only at h
  split at h
  · rename_i hempty
    cases h
    intro value hvalue
    refine .inr (.inl (List.mem_filter.mpr ⟨hvalue, ?_⟩))
    have hnil : includesOf url scope = [] := List.isEmpty_iff.mp hempty
    rw [Option.isNone_iff_eq_none]
    exact List.filterMap_eq_nil_iff.mp hnil value hvalue
  · obtain ⟨sets, hsets, h⟩ := Except.bind_eq_ok.mp h
    have hresolve := resolveSets_sound hsets fun s hs => (by cases hs)
    cases h
    have hvalues : ∀ value ∈ (includesOf url scope).flatMap (permissionsFrom url sets) ++
        othersOf url scope, value ∈ othersOf url scope ∨ Introduced url scope resolve value := by
      intro value hvalue
      rcases List.mem_append.mp hvalue with hvalue | hvalue
      · obtain ⟨incl, hincl, hvalue⟩ := List.mem_flatMap.mp hvalue
        rw [permissionsFrom] at hvalue
        split at hvalue
        · rename_i nsid set hfind
          obtain ⟨p, hp, rfl⟩ := List.mem_map.mp hvalue
          have hnsid := List.find?_some hfind
          rw [beq_iff_eq] at hnsid
          have hset := hresolve _ (List.mem_of_find?_eq_some hfind)
          exact .inr ⟨incl, hincl, set, hnsid ▸ hset, p, hp, rfl⟩
        · cases hvalue
      · exact .inl hvalue
    change ∀ value ∈ (join (char ' ') ((includesOf url scope).flatMap (permissionsFrom url sets) ++
      othersOf url scope)).splitOn (char ' '), _
    revert hvalues
    generalize (includesOf url scope).flatMap (permissionsFrom url sets) ++ othersOf url scope
      = values
    intro hvalues value hvalue
    cases values with
    | nil => exact .inl (List.mem_singleton.mp hvalue)
    | cons first values =>
        rw [join, List.splitOn_intercalate _ ?_ (by simp)] at hvalue
        · exact .inr (hvalues value hvalue)
        · intro value hvalue
          rcases hvalues value hvalue with hvalue | ⟨_, _, _, _, p, _, rfl⟩
          · exact not_mem_of_mem_splitOn (List.mem_filter.mp hvalue).1
          · exact p.not_mem_toScope

theorem IncludeScope.isAtprotoDidRef_of_mem {scope aud : Bytes}
    (h : incl ∈ includesOf url scope) (haud : incl.aud = some aud) :
  isAtprotoDidRef url aud = true
  := by
  obtain ⟨value, _, hvalue⟩ := List.mem_filterMap.mp h
  exact isAtprotoDidRef_of_fromStr hvalue haud

/-- The permissions of a scope, of which the transition scopes are honored or not. -/
def permissionsOf (url : UrlLibrary) (transition : Bool) (scope : Bytes) : ScopePermissions :=
  if transition then .withTransitionScopes url scope else .new url scope

theorem permissionsOf_eq (transition : Bool) (scope : Bytes) :
  permissionsOf url transition scope
    = .grantedBy url transition (scope.splitOn (char ' '))
  := by
  cases transition with
  | true => rfl
  | false =>
      obtain ⟨scopes, heq, -⟩ := fromScopes_eq_gather url (scope.splitOn (char ' '))
      show ScopePermissions.fromScopes url _ = _
      rw [ScopePermissions.grantedBy, heq]
      rfl

/-- Whatever the permission sets contain, an operation that an expanded scope allows is allowed
by the values of the scope that are not include scopes, or is a write to a collection or a call
of a method in the namespace of one of the include scopes, for the audience of that include scope
unless the set says that it is for every audience. The values of the expanded scope are those
other values and permissions of the sets, which parse to nothing but `repo` and `rpc`
permissions. -/
theorem expandIncludeScopes_contained (hreads : url.ReadsForms decode) {scope e : Bytes}
    {resolve : Bytes → Option (PermissionSet ν)}
    (h : expandIncludeScopes url scope resolve = .ok e) :
  (∀ transition op, (permissionsOf url transition e).allows op = true →
    (ScopePermissions.grantedBy url transition (othersOf url scope)).allows op = true ∨
      ∃ incl ∈ includesOf url scope, ∃ set, resolve incl.nsid = some set ∧ Delegates incl set op) ∧
    ∀ value ∈ e.splitOn (char ' '), value = [] ∨ value ∈ othersOf url scope ∨
      (Introduced url scope resolve value ∧
        ∀ s, AtprotoScope.fromStr url value = some s → (∃ p, s = .repo p) ∨ ∃ p, s = .rpc p)
  := by
  have hvalues := expandIncludeScopes_values h
  constructor
  · intro transition op hallows
    rw [permissionsOf_eq] at hallows
    obtain ⟨value, hvalue, hne, hallows⟩ := (allows_iff url).mp hallows
    rcases hvalues value hvalue with hnil | hother | ⟨incl, hincl, set, hset, p, hp, rfl⟩
    · exact absurd hnil hne
    · exact .inl ((allows_iff url).mpr ⟨value, hother, hne, hallows⟩)
    · refine .inr ⟨incl, hincl, set, hset, ?_⟩
      have hscope := fun aud => @IncludeScope.isAtprotoDidRef_of_mem url incl scope aud hincl
      exact (IncludeScope.contained_of_mem hp).delegates hreads hscope hallows
  · intro value hvalue
    rcases hvalues value hvalue with hnil | hother | hintroduced
    · exact .inl hnil
    · exact .inr (.inl hother)
    · refine .inr (.inr ⟨hintroduced, fun s hs => ?_⟩)
      obtain ⟨incl, _, set, _, p, hp, rfl⟩ := hintroduced
      rcases (IncludeScope.contained_of_mem hp).reparse hreads hs with ⟨p', hp', _⟩ | ⟨p', hp', _⟩
      · exact .inl ⟨p', hp'⟩
      · exact .inr ⟨p', hp'⟩

/-- A URL library that knows one URL. -/
def UrlLibrary.sample : UrlLibrary where
  parses := fun text => text == ascii "https://example.com"
  formParse := fun query =>
    (formPairs query).map fun pair => (formUnescape pair.1, formUnescape pair.2)

/-- A permission set with one permission in its namespace and one outside of it. -/
def PermissionSet.calendar : PermissionSet Unit where
  permissions :=
    [{ resource := ascii "rpc"
       params := [(ascii "inheritAud", .bool true),
                  (ascii "lxm", .array [.string (ascii "com.example.calendar.listEvents")])] },
     { resource := ascii "repo"
       params := [(ascii "collection", .array [.string (ascii "app.bsky.feed.post")])] }]

/-- An include scope is expanded to the permission in its namespace, for its own audience. -/
theorem calendar_expandIncludeScopes_contained :
  expandIncludeScopes .sample
      (ascii "atproto include:com.example.calendar.auth?aud=did:web:example.com%23cal")
      (fun _ => some PermissionSet.calendar)
    = .ok (ascii "rpc:com.example.calendar.listEvents?aud=did:web:example.com%23cal atproto") ∧
    ∀ transition op,
      (permissionsOf .sample transition
        (ascii "rpc:com.example.calendar.listEvents?aud=did:web:example.com%23cal atproto")).allows op
          = true →
      (ScopePermissions.grantedBy .sample transition (othersOf .sample
        (ascii "atproto include:com.example.calendar.auth?aud=did:web:example.com%23cal"))).allows op
          = true ∨
      ∃ incl ∈ includesOf .sample
        (ascii "atproto include:com.example.calendar.auth?aud=did:web:example.com%23cal"),
        ∃ set, some PermissionSet.calendar = some set ∧ Delegates incl set op
  := by
  have hreads : UrlLibrary.sample.ReadsForms formUnescape :=
    ⟨fun _ => rfl, fun _ _ => rfl⟩
  have hexpand : expandIncludeScopes .sample
      (ascii "atproto include:com.example.calendar.auth?aud=did:web:example.com%23cal")
      (fun _ => some PermissionSet.calendar)
      = .ok (ascii "rpc:com.example.calendar.listEvents?aud=did:web:example.com%23cal atproto") := by
    decide +kernel
  exact ⟨hexpand, (expandIncludeScopes_contained hreads hexpand).1⟩

end Shrike.OAuth
