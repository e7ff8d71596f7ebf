import Shrike.OAuth.Permission

/-!
# What scope values allow

A list of scope values allows an operation exactly when one of its values does.
-/

namespace Shrike.OAuth

open Bytes

/-- What a client can ask to do. -/
inductive Operation where
  | account (attr : AccountAttr) (action : AccountAction)
  | identity (attr : IdentityAttr)
  | blob (mime : Bytes)
  | repo (collection : Bytes) (action : RepoAction)
  | rpc (aud lxm : Bytes)

namespace ScopePermissions

/-- Whether an operation is allowed. -/
def allows (perms : ScopePermissions) : Operation → Bool
  | .account attr action => perms.allowsAccount attr action
  | .identity attr => perms.allowsIdentity attr
  | .blob mime => perms.allowsBlob mime
  | .repo collection action => perms.allowsRepo collection action
  | .rpc aud lxm => perms.allowsRpc aud lxm

/-- The permissions of some scope values, of which the transition scopes are honored or not. -/
def grantedBy (url : UrlLibrary) (transition : Bool) (values : List Bytes) : ScopePermissions :=
  { fromScopes url values with transition }

end ScopePermissions

/-! ### Gathering -/

namespace AtprotoScope

@[simp]
def asAccount : AtprotoScope → Option AccountPermission
  | .account p => some p
  | _ => none

@[simp]
def asBlob : AtprotoScope → Option BlobPermission
  | .blob p => some p
  | _ => none

@[simp]
def asIdentity : AtprotoScope → Option IdentityPermission
  | .identity p => some p
  | _ => none

@[simp]
def asRepo : AtprotoScope → Option RepoPermission
  | .repo p => some p
  | _ => none

@[simp]
def asRpc : AtprotoScope → Option RpcPermission
  | .rpc p => some p
  | _ => none

end AtprotoScope

variable (url : UrlLibrary)

/-- The permissions of one kind that some scope values grant. -/
def gatherAs {α : Type} (kind : AtprotoScope → Option α) (scopes : List Bytes) : List α :=
  scopes.filterMap fun v => (AtprotoScope.fromStr url v).bind kind

/-- The permissions of distinct scope values. -/
def gather (scopes : List Bytes) : ScopePermissions where
  scopes := scopes
  transition := false
  account := gatherAs url AtprotoScope.asAccount scopes
  blob := gatherAs url AtprotoScope.asBlob scopes
  identity := gatherAs url AtprotoScope.asIdentity scopes
  repo := gatherAs url AtprotoScope.asRepo scopes
  rpc := gatherAs url AtprotoScope.asRpc scopes

theorem gatherAs_concat {α : Type} (kind : AtprotoScope → Option α) (scopes : List Bytes)
    (v : Bytes) :
  gatherAs url kind (scopes ++ [v])
    = gatherAs url kind scopes ++ ((AtprotoScope.fromStr url v).bind kind).toList
  := by
  rw [gatherAs, List.filterMap_append, gatherAs]
  cases hv : (AtprotoScope.fromStr url v).bind kind with
  | none => simp [hv]
  | some p => simp [hv]

variable {scopes values : List Bytes}

theorem add_gather {v : Bytes} (h : ¬(v = [] ∨ v ∈ scopes)) :
  (gather url scopes).add url v = gather url (scopes ++ [v])
  := by
  have hnew : ¬(v = [] ∨ v ∈ (gather url scopes).scopes) := h
  rw [ScopePermissions.add, if_neg hnew]
  unfold gather
  simp only [gatherAs_concat]
  cases AtprotoScope.fromStr url v with
  | none => simp
  | some scope => cases scope <;> simp

theorem foldl_add_gather (values : List Bytes) :
  ∀ scopes : List Bytes, ∃ scopes',
    values.foldl (ScopePermissions.add url) (gather url scopes) = gather url scopes' ∧
      ∀ v, v ∈ scopes' ↔ v ∈ scopes ∨ (v ∈ values ∧ v ≠ [])
  := by
  induction values with
  | nil => exact fun scopes => ⟨scopes, rfl, fun v => by simp⟩
  | cons value values ih =>
      intro scopes
      rw [List.foldl_cons]
      by_cases hold : value = [] ∨ value ∈ scopes
      · have hsame : (gather url scopes).add url value = gather url scopes := by
          have hseen : value = [] ∨ value ∈ (gather url scopes).scopes := hold
          rw [ScopePermissions.add, if_pos hseen]
        obtain ⟨scopes', heq, hmem⟩ := ih scopes
        rw [hsame]
        refine ⟨scopes', heq, fun v => ?_⟩
        rw [hmem, List.mem_cons]
        constructor
        · rintro (h | ⟨h, hne⟩)
          · exact .inl h
          · exact .inr ⟨.inr h, hne⟩
        · rintro (h | ⟨rfl | h, hne⟩)
          · exact .inl h
          · exact .inl (hold.resolve_left hne)
          · exact .inr ⟨h, hne⟩
      · obtain ⟨scopes', heq, hmem⟩ := ih (scopes ++ [value])
        rw [add_gather url hold]
        refine ⟨scopes', heq, fun v => ?_⟩
        rw [hmem, List.mem_append, List.mem_singleton, List.mem_cons]
        constructor
        · rintro ((h | rfl) | ⟨h, hne⟩)
          · exact .inl h
          · exact .inr ⟨.inl rfl, fun hnil => hold (.inl hnil)⟩
          · exact .inr ⟨.inr h, hne⟩
        · rintro (h | ⟨rfl | h, hne⟩)
          · exact .inl (.inl h)
          · exact .inl (.inr rfl)
          · exact .inr ⟨h, hne⟩

/-- The permissions of some scope values are those of the distinct values among them that are
not empty. -/
theorem fromScopes_eq_gather (values : List Bytes) :
  ∃ scopes, ScopePermissions.fromScopes url values = gather url scopes ∧
    ∀ v, v ∈ scopes ↔ v ∈ values ∧ v ≠ []
  := by
  obtain ⟨scopes, heq, hmem⟩ := foldl_add_gather url values []
  exact ⟨scopes, heq, fun v => by simp [hmem]⟩

/-! ### Single values -/

/-- What one scope value allows. -/
def ValueAllows (transition : Bool) (v : Bytes) : Operation → Prop
  | .account attr action =>
      ((attr = .email ∧ action = .read ∧ transition = true) ∧ ascii "transition:email" = v) ∨
        ∃ p, AtprotoScope.fromStr url v = some (.account p) ∧ p.matchesOp attr action = true
  | .identity attr =>
      ∃ p, AtprotoScope.fromStr url v = some (.identity p) ∧ p.matchesOp attr = true
  | .blob mime =>
      (transition = true ∧ ascii "transition:generic" = v) ∨
        ∃ p, AtprotoScope.fromStr url v = some (.blob p) ∧ p.matchesOp mime = true
  | .repo collection action =>
      (transition = true ∧ ascii "transition:generic" = v) ∨
        ∃ p, AtprotoScope.fromStr url v = some (.repo p) ∧ p.matchesOp collection action = true
  | .rpc aud lxm =>
      ((transition = true ∧ (ascii "chat.bsky.").isPrefixOf lxm = false) ∧
          ascii "transition:generic" = v) ∨
        ((transition = true ∧ (ascii "chat.bsky.").isPrefixOf lxm = true) ∧
          ascii "transition:chat.bsky" = v) ∨
        ∃ p, AtprotoScope.fromStr url v = some (.rpc p) ∧ p.matchesOp aud lxm = true

/-- A value that is looked for among others, or another condition on one of them. -/
theorem exists_eq_or {value : Bytes} {p : Prop} {q : Bytes → Prop} :
  (∃ v ∈ values, (p ∧ value = v) ∨ q v) ↔ (p ∧ value ∈ values) ∨ ∃ v ∈ values, q v
  := by
  constructor
  · rintro ⟨v, hv, ⟨hp, rfl⟩ | hq⟩
    · exact .inl ⟨hp, hv⟩
    · exact .inr ⟨v, hv, hq⟩
  · rintro (⟨hp, hv⟩ | ⟨v, hv, hq⟩)
    · exact ⟨value, hv, .inl ⟨hp, rfl⟩⟩
    · exact ⟨v, hv, .inr hq⟩

theorem any_gatherAs {α : Type} {kind : AtprotoScope → Option α} {make : α → AtprotoScope}
    (hkind : ∀ scope p, kind scope = some p ↔ scope = make p) {test : α → Bool} :
  (gatherAs url kind scopes).any test = true ↔
    ∃ v ∈ scopes, ∃ p, AtprotoScope.fromStr url v = some (make p) ∧ test p = true
  := by
  rw [List.any_eq_true]
  constructor
  · rintro ⟨p, hp, htest⟩
    obtain ⟨v, hv, hp⟩ := List.mem_filterMap.mp hp
    obtain ⟨scope, hscope, hp⟩ := Option.bind_eq_some_iff.mp hp
    rw [hkind] at hp
    exact ⟨v, hv, p, hp ▸ hscope, htest⟩
  · rintro ⟨v, hv, p, hp, htest⟩
    refine ⟨p, List.mem_filterMap.mpr ⟨v, hv, ?_⟩, htest⟩
    rw [hp]
    exact (hkind _ _).mpr rfl

theorem asAccount_eq_some (scope : AtprotoScope) (p : AccountPermission) :
  scope.asAccount = some p ↔ scope = .account p
  := by
  cases scope <;> simp

theorem asBlob_eq_some (scope : AtprotoScope) (p : BlobPermission) :
  scope.asBlob = some p ↔ scope = .blob p
  := by
  cases scope <;> simp

theorem asIdentity_eq_some (scope : AtprotoScope) (p : IdentityPermission) :
  scope.asIdentity = some p ↔ scope = .identity p
  := by
  cases scope <;> simp

theorem asRepo_eq_some (scope : AtprotoScope) (p : RepoPermission) :
  scope.asRepo = some p ↔ scope = .repo p
  := by
  cases scope <;> simp

theorem asRpc_eq_some (scope : AtprotoScope) (p : RpcPermission) :
  scope.asRpc = some p ↔ scope = .rpc p
  := by
  cases scope <;> simp

/-- Scope values allow an operation exactly when one of them does. -/
theorem allows_iff {transition : Bool} {op : Operation} :
  (ScopePermissions.grantedBy url transition values).allows op = true ↔
    ∃ v ∈ values, v ≠ [] ∧ ValueAllows url transition v op
  := by
  obtain ⟨scopes, heq, hmem⟩ := fromScopes_eq_gather url values
  have hvalues : (∃ v ∈ values, v ≠ [] ∧ ValueAllows url transition v op) ↔
      ∃ v ∈ scopes, ValueAllows url transition v op := by
    constructor
    · rintro ⟨v, hv, hne, h⟩
      exact ⟨v, (hmem v).mpr ⟨hv, hne⟩, h⟩
    · rintro ⟨v, hv, h⟩
      obtain ⟨hv, hne⟩ := (hmem v).mp hv
      exact ⟨v, hv, hne, h⟩
  rw [hvalues, ScopePermissions.grantedBy, heq]
  cases op with
  | account attr action =>
      simp only [ValueAllows, exists_eq_or]
      simp only [ScopePermissions.allows, ScopePermissions.allowsAccount,
        ScopePermissions.hasTransitionEmail, ScopePermissions.has, gather,
        any_gatherAs url asAccount_eq_some, Bool.or_eq_true, Bool.and_eq_true, beq_iff_eq,
        List.contains_iff_mem, and_assoc]
  | identity attr =>
      simp only [ValueAllows, ScopePermissions.allows, ScopePermissions.allowsIdentity, gather,
        any_gatherAs url asIdentity_eq_some]
  | blob mime =>
      simp only [ValueAllows, exists_eq_or, ScopePermissions.allows, ScopePermissions.allowsBlob,
        ScopePermissions.hasTransitionGeneric, ScopePermissions.has, gather,
        any_gatherAs url asBlob_eq_some, Bool.or_eq_true, Bool.and_eq_true, List.contains_iff_mem]
  | repo collection action =>
      simp only [ValueAllows, exists_eq_or, ScopePermissions.allows, ScopePermissions.allowsRepo,
        ScopePermissions.hasTransitionGeneric, ScopePermissions.has, gather,
        any_gatherAs url asRepo_eq_some, Bool.or_eq_true, Bool.and_eq_true, List.contains_iff_mem]
  | rpc aud lxm =>
      simp only [ValueAllows, exists_eq_or]
      simp only [ScopePermissions.allows, ScopePermissions.allowsRpc,
        ScopePermissions.hasTransitionGeneric, ScopePermissions.hasTransitionChatBsky,
        ScopePermissions.has, gather, any_gatherAs url asRpc_eq_some, Bool.or_eq_true,
        Bool.and_eq_true, Bool.not_eq_true', List.contains_iff_mem, or_assoc, and_right_comm]

end Shrike.OAuth
