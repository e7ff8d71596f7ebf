import Shrike.Data.Lowercase
import Shrike.OAuth.Reparse

/-!
# Rendered scopes mean the same

A rendered scope value parses again, to a permission for the same operations. Only the patterns of
blobs are matched as they are written and rendered in lower case.
-/

/-!
## Rendering scope values

Each kind of permission has its own normal form, in which it is rendered.
-/

namespace Shrike.OAuth

open Bytes

/-- Whether two lists have the same values. -/
def sameValues {α : Type} [DecidableEq α] (a b : List α) : Bool :=
  a.all (b.contains ·) && b.all (a.contains ·)

variable (url : UrlLibrary) (tables : UnicodeTables)

def AccountAttr.name : AccountAttr → Bytes
  | .email => ascii "email"
  | .repo => ascii "repo"
  | .status => ascii "status"

def AccountAction.name : AccountAction → Bytes
  | .read => ascii "read"
  | .manage => ascii "manage"

/-- The named parameters of the rendered permission. -/
def AccountPermission.actionParams (p : AccountPermission) : List (Bytes × Bytes) :=
  if sameValues p.action [.read] then []
  else p.action.eraseDups.map fun action => (ascii "action", action.name)

/-- Render the permission. -/
def AccountPermission.toScope (p : AccountPermission) : Bytes :=
  format url (ascii "account") (some p.attr.name) p.actionParams

/-- Whether a pattern is not covered by the pattern for its whole type. -/
def isMinimal (patterns : List Bytes) (a : Bytes) : Bool :=
  (ascii "/*").isSuffixOf a || !patterns.contains (a.takeWhile (· ≠ char '/') ++ ascii "/*")

/-- The patterns in normal form. -/
def BlobPermission.patterns (p : BlobPermission) : List Bytes :=
  if p.accept.any (· == ascii "*/*") then [ascii "*/*"]
  else
    let lower := p.accept.map (toLowercase tables)
    (lower.filter (isMinimal lower)).insertionSort fun a b => jsLe a b = true

/-- Render the permission. -/
def BlobPermission.toScope (p : BlobPermission) : Bytes :=
  match p.patterns tables with
  | [one] => format url (ascii "blob") (some one) []
  | many => format url (ascii "blob") none (many.eraseDups.map fun a => (ascii "accept", a))

def IdentityAttr.name : IdentityAttr → Bytes
  | .handle => ascii "handle"
  | .any => ascii "*"

/-- Render the permission. -/
def IdentityPermission.toScope (p : IdentityPermission) : Bytes :=
  format url (ascii "identity") (some p.attr.name) []

/-- Render the include scope. -/
def IncludeScope.toScope (scope : IncludeScope) : Bytes :=
  format url (ascii "include") (some scope.nsid)
    (scope.aud.toList.map fun aud => (ascii "aud", aud))

/-- Render a scope value. -/
def AtprotoScope.toScope : AtprotoScope → Bytes
  | .atproto => ascii "atproto"
  | .transitionGeneric => ascii "transition:generic"
  | .transitionEmail => ascii "transition:email"
  | .transitionChatBsky => ascii "transition:chat.bsky"
  | .account p => p.toScope url
  | .blob p => p.toScope url tables
  | .identity p => p.toScope url
  | .incl scope => scope.toScope url
  | .repo p => p.toScope url
  | .rpc p => p.toScope url

/-- Normalize the values of a scope, without those that are no scope values, and sort them. -/
def normalizeAtprotoOauthScope (scope : Bytes) : Bytes :=
  let values := (scope.splitOn (char ' ')).filterMap (AtprotoScope.fromStr url)
  join (char ' ')
    ((values.map (AtprotoScope.toScope url tables)).insertionSort fun a b => jsLe a b = true)

end Shrike.OAuth

/-! ## Rendered scopes mean the same -/

namespace Shrike.OAuth

open Bytes

variable {url : UrlLibrary} {decode : Bytes → Bytes}

/-! ### Parameters that are read -/

variable {values : List Bytes} {params : List (Bytes × Param)}

variable {a k v w bs bs' key mime value accept resource : Bytes}

theorem addOccurrence_new (value : Bytes) (h : ∀ param ∈ params, param.1 ≠ key) :
  addOccurrence key value params = params ++ [(key, .query [value])]
  := by
  induction params with
  | nil => rfl
  | cons first params ih =>
      rw [addOccurrence.eq_def]
      dsimp only
      rw [if_neg (h first List.mem_cons_self),
        ih fun param hparam => h param (List.mem_cons_of_mem _ hparam)]
      rfl

theorem addOccurrence_again (value : Bytes)
    (values : List Bytes) (h : ∀ param ∈ params, param.1 ≠ key) :
  addOccurrence key value (params ++ [(key, .query values)])
    = params ++ [(key, .query (values ++ [value]))]
  := by
  induction params with
  | nil =>
      rw [List.nil_append, addOccurrence, if_pos rfl]
      rfl
  | cons first params ih =>
      rw [List.cons_append, addOccurrence.eq_def]
      dsimp only
      rw [if_neg (h first List.mem_cons_self),
        ih fun param hparam => h param (List.mem_cons_of_mem _ hparam)]
      rfl

/-- The parameters of a query. -/
def occurrences (pairs : List (Bytes × Bytes)) (params : List (Bytes × Param)) :
    List (Bytes × Param) :=
  pairs.foldl (fun ps pair => addOccurrence pair.1 pair.2 ps) params

theorem occurrences_again (h : ∀ param ∈ params, param.1 ≠ key) (more values : List Bytes) :
  occurrences (more.map fun v => (key, v)) (params ++ [(key, .query values)])
    = params ++ [(key, .query (values ++ more))]
  := by
  induction more generalizing values with
  | nil =>
      rw [List.append_nil]
      rfl
  | cons v more ih =>
      have hstep : occurrences ((v :: more).map fun v => (key, v)) (params ++ [(key, .query values)])
          = occurrences (more.map fun v => (key, v))
            (addOccurrence key v (params ++ [(key, .query values)])) := rfl
      rw [hstep, addOccurrence_again v values h, ih, List.append_assoc, List.singleton_append]

/-- The values that are given for a new parameter. -/
theorem occurrences_new (h : ∀ param ∈ params, param.1 ≠ key) (hvalues : values ≠ []) :
  occurrences (values.map fun v => (key, v)) params = params ++ [(key, .query values)]
  := by
  cases values with
  | nil => exact absurd rfl hvalues
  | cons v values =>
      have hstep : occurrences ((v :: values).map fun v => (key, v)) params
          = occurrences (values.map fun v => (key, v)) (addOccurrence key v params) := rfl
      rw [hstep, addOccurrence_new v h, occurrences_again h]
      rfl

theorem occurrences_append (pairs pairs' : List (Bytes × Bytes)) (params : List (Bytes × Param)) :
  occurrences (pairs ++ pairs') params = occurrences pairs' (occurrences pairs params)
  := List.foldl_append

/-! ### Parameters that are valid -/

variable {syn : Syntax} {positional : Bytes} {field : Field}

theorem parseField_many (hget : syn.get field.name = some (.query values))
    (hnew : syn.positional = none ∨ field.name ≠ positional) (hmultiple : field.multiple = true)
    (hvalues : values ≠ []) (hvalid : ∀ v ∈ values, field.validate v = true) :
  parseField syn positional field = some (.many values)
  := by
  have hgiven : ¬(syn.positional.isSome ∧ field.name = positional) := by
    rcases hnew with hnone | hne
    · simp [hnone]
    · exact fun h => hne h.2
  rw [parseField, hget]
  dsimp only
  rw [if_neg hgiven, if_pos hmultiple]
  dsimp only [Param.multi, bind, Option.bind]
  rw [if_pos ⟨hvalues, List.all_eq_true.mpr hvalid⟩]

theorem parseField_one (hget : syn.get field.name = some (.query [value]))
    (hnew : syn.positional = none ∨ field.name ≠ positional) (hmultiple : field.multiple = false)
    (hvalid : field.validate value = true) :
  parseField syn positional field = some (.one value)
  := by
  have hgiven : ¬(syn.positional.isSome ∧ field.name = positional) := by
    rcases hnew with hnone | hne
    · simp [hnone]
    · exact fun h => hne h.2
  rw [parseField, hget]
  dsimp only
  rw [if_neg hgiven, hmultiple, if_neg Bool.false_ne_true]
  dsimp only [Param.single, bind, Option.bind]
  rw [if_pos hvalid]

theorem parseField_positional (hget : syn.get field.name = none)
    (hpositional : syn.positional = some value) (hname : field.name = positional)
    (hvalid : field.validate value = true) :
  parseField syn positional field = some (if field.multiple then .many [value] else .one value)
  := by
  rw [parseField, hget, hpositional]
  dsimp only
  rw [if_pos hname, if_pos hvalid]

theorem parseField_absent (hget : syn.get field.name = none)
    (hname : syn.positional = none ∨ field.name ≠ positional) (hrequired : field.required = false) :
  parseField syn positional field = some .absent
  := by
  rw [parseField, hget]
  cases hpositional : syn.positional with
  | none =>
      dsimp only
      rw [hrequired, if_neg Bool.false_ne_true]
  | some value =>
      rw [hpositional] at hname
      have hne : field.name ≠ positional := hname.resolve_left (Option.some_ne_none value)
      dsimp only
      rw [if_neg hne, hrequired, if_neg Bool.false_ne_true]

theorem parse_singleton {x : Parsed} (hknown : ∀ param ∈ syn.params, param.1 = field.name)
    (h : parseField syn positional field = some x) :
  parse syn [field] positional = some [x]
  := by
  have hnone : (syn.params.any fun param => !([field].any (·.name == param.1))) = false := by
    rw [List.any_eq_false]
    intro param hparam
    simp [hknown param hparam]
  rw [parse, hnone, if_neg Bool.false_ne_true, List.mapM_cons, List.mapM_nil, h]
  rfl

theorem parse_pair_eq_some {g : Field} {x y : Parsed}
    (hknown : ∀ param ∈ syn.params, param.1 = field.name ∨ param.1 = g.name)
    (hx : parseField syn positional field = some x) (hy : parseField syn positional g = some y) :
  parse syn [field, g] positional = some [x, y]
  := by
  have hnone : (syn.params.any fun param => !([field, g].any (·.name == param.1))) = false := by
    rw [List.any_eq_false]
    intro param hparam
    rcases hknown param hparam with h | h
    · simp [h]
    · simp [h]
  rw [parse, hnone, if_neg Bool.false_ne_true, List.mapM_cons, List.mapM_cons, List.mapM_nil, hx, hy]
  rfl

theorem Syntax.get_cons_self (given : Option Bytes) (key : Bytes) (param : Param)
    (params : List (Bytes × Param)) :
  Syntax.get ⟨given, (key, param) :: params⟩ key = some param
  := by simp [Syntax.get]

theorem Syntax.get_cons_of_ne (given : Option Bytes) (h : k ≠ key) (param : Param)
    (params : List (Bytes × Param)) :
  Syntax.get ⟨given, (k, param) :: params⟩ key = Syntax.get ⟨given, params⟩ key
  := by simp [Syntax.get, h]

/-! ### Scope values that are read -/

/-- The resources of permissions. -/
def resources : List Bytes :=
  [ascii "account", ascii "blob", ascii "identity", ascii "include", ascii "repo", ascii "rpc"]

/-- The scope value of a resource with its parameters. -/
def AtprotoScope.ofSyntax (url : UrlLibrary) (resource : Bytes) (syn : Syntax) :
    Option AtprotoScope :=
  if resource = ascii "account" then (AccountPermission.fromSyntax syn).map .account
  else if resource = ascii "blob" then (BlobPermission.fromSyntax syn).map .blob
  else if resource = ascii "identity" then (IdentityPermission.fromSyntax syn).map .identity
  else if resource = ascii "include" then (IncludeScope.fromSyntax url syn).map .incl
  else if resource = ascii "repo" then (RepoPermission.fromSyntax syn).map .repo
  else if resource = ascii "rpc" then (RpcPermission.fromSyntax url syn).map .rpc
  else none

/-- A rendered permission is read as the parameters that it was rendered from. -/
theorem fromStr_format (hreads : url.ReadsForms decode)
    (hresource : resource ∈ resources) {given : Option Bytes} {params : List (Bytes × Bytes)}
    (hgiven : ∀ value, given = some value → utf8 value = true) (hparams : WellFormed params) :
  AtprotoScope.fromStr url (format url resource given params)
    = AtprotoScope.ofSyntax url resource ⟨given, occurrences params []⟩
  := by
  have hplain : ∀ resource ∈ resources, (∀ b ∈ resource, b ≠ char ':' ∧ b ≠ char '?') ∧
      resource ≠ ascii "atproto" ∧ resource ≠ ascii "transition" := by decide +kernel
  obtain ⟨hplain, hatproto, htransition⟩ := hplain resource hresource
  have hof : resourceOf (format url resource given params) = resource := resourceOf_format hplain
  have hne : ∀ s : String, resourceOf (ascii s) ≠ resource →
      format url resource given params ≠ ascii s := by
    intro s hs heq
    rw [heq] at hof
    exact hs hof
  rw [AtprotoScope.fromStr, if_neg (hne _ fun h => hatproto (h.symm.trans (by decide))),
    if_neg (hne _ fun h => htransition (h.symm.trans (by decide))),
    if_neg (hne _ fun h => htransition (h.symm.trans (by decide))),
    if_neg (hne _ fun h => htransition (h.symm.trans (by decide))), hof,
    fromScope_format hreads hgiven hparams]
  rfl

/-! ### Lists of values -/

theorem eraseDups_ne_nil {α : Type} [BEq α] [LawfulBEq α] {as : List α} (h : as ≠ []) :
  as.eraseDups ≠ []
  := by
  obtain ⟨a, ha⟩ := List.exists_mem_of_ne_nil _ h
  exact List.ne_nil_of_mem (List.mem_eraseDups.mpr ha)

theorem sortedUnique_ne_nil (h : values ≠ []) :
  sortedUnique values ≠ []
  := by
  intro hnil
  rw [sortedUnique, List.destutter_eq_nil] at hnil
  have hlength := congrArg List.length hnil
  rw [List.length_insertionSort, List.length_nil] at hlength
  exact h (List.eq_nil_of_length_eq_zero hlength)

/-- Dropping repetitions keeps every value. -/
theorem mem_destutter' (h : v ∈ w :: values) :
  v ∈ values.destutter' (· ≠ ·) w
  := by
  induction values generalizing w with
  | nil => exact h
  | cons x values ih =>
      by_cases hne : w ≠ x
      · rw [List.destutter'_cons_pos _ hne]
        rcases List.mem_cons.mp h with rfl | h
        · exact List.mem_cons_self
        · exact List.mem_cons_of_mem _ (ih h)
      · rw [List.destutter'_cons_neg _ hne]
        rw [not_not] at hne
        subst hne
        apply ih
        rcases List.mem_cons.mp h with rfl | h
        · exact List.mem_cons_self
        · exact h

theorem mem_sortedUnique :
  v ∈ sortedUnique values ↔ v ∈ values
  := by
  constructor
  · exact mem_of_mem_sortedUnique
  · intro h
    rw [sortedUnique]
    have hmem := (List.mem_insertionSort fun a b => jsLe a b = true).mpr h
    cases hsorted : values.insertionSort fun a b => jsLe a b = true with
    | nil =>
        rw [hsorted] at hmem
        cases hmem
    | cons w sorted =>
        rw [hsorted] at hmem
        exact mem_destutter' hmem

theorem mapM_map_eq_some {α β : Type} {f : α → β} {g : β → Option α} (h : ∀ a, g (f a) = some a)
    (as : List α) :
  (as.map f).mapM g = some as
  := by
  induction as with
  | nil => rfl
  | cons a as ih =>
      rw [List.map_cons, List.mapM_cons, h, ih]
      rfl

/-! ### Repositories -/

theorem RepoAction.fromName_name (action : RepoAction) :
  RepoAction.fromName action.name = some action
  := by
  cases action <;> rfl

namespace RepoPermission

variable {p : RepoPermission}

theorem collections_ne_nil (h : p.collection ≠ []) :
  p.collections ≠ []
  := by
  unfold collections
  split
  · exact List.cons_ne_nil _ _
  · split
    · exact List.cons_ne_nil _ _
    · exact sortedUnique_ne_nil h

theorem actions_ne_nil (h : p.action ≠ []) :
  p.actions ≠ []
  := by
  obtain ⟨action, haction⟩ := List.exists_mem_of_ne_nil _ h
  have hmem : action ∈ p.actions := by
    rw [actions, List.mem_filter]
    exact ⟨by cases action <;> decide, List.contains_iff_mem.mpr haction⟩
  exact List.ne_nil_of_mem hmem

/-- The parameter of the actions, which is left out for all of them. -/
def actionEntry (p : RepoPermission) : List (Bytes × Param) :=
  if p.actions ≠ RepoAction.all then [(ascii "action", .query (p.actions.map RepoAction.name))]
  else []

theorem occurrences_actionParams (haction : p.action ≠ []) {params : List (Bytes × Param)}
    (h : ∀ param ∈ params, param.1 ≠ ascii "action") :
  occurrences p.actionParams params = params ++ p.actionEntry
  := by
  rw [actionParams, actionEntry]
  split
  · have hnames : p.actions.map RepoAction.name ≠ [] := by
      rw [ne_eq, List.map_eq_nil_iff]
      exact actions_ne_nil haction
    have hnew := occurrences_new h hnames
    rwa [List.map_map] at hnew
  · rw [List.append_nil]
    rfl

/-- What the parameters of a permission are read as. -/
theorem fromSyntax_eq_some {given : Option Bytes} {params : List (Bytes × Param)}
    {collection : List Bytes} (haction : p.action ≠ [])
    (hparams : ∀ param ∈ params, param.1 = ascii "collection")
    (hcollection : parseField ⟨given, params ++ p.actionEntry⟩ (ascii "collection")
      { name := ascii "collection", multiple := true, required := true,
        validate := isNsidOrWildcard } = some (.many collection)) :
  fromSyntax ⟨given, params ++ p.actionEntry⟩ = some ⟨collection, p.actions⟩
  := by
  have hget : ∀ entries, Syntax.get ⟨given, params ++ entries⟩ (ascii "action")
      = Syntax.get ⟨given, entries⟩ (ascii "action") := by
    intro entries
    rw [Syntax.get, Syntax.get, List.find?_append, List.find?_eq_none.mpr, Option.none_or]
    intro param hparam
    rw [hparams param hparam]
    decide
  have hread : ∃ y, parseField ⟨given, params ++ p.actionEntry⟩ (ascii "collection")
      { name := ascii "action", multiple := true, required := false,
        validate := fun v => (RepoAction.fromName v).isSome } = some y ∧
        actionsOf y = some p.actions := by
    by_cases hall : p.actions = RepoAction.all
    · refine ⟨.absent, parseField_absent ?_ (.inr (by decide)) rfl, ?_⟩
      · rw [hget, actionEntry, if_neg (not_not.mpr hall)]
        rfl
      · rw [hall]
        rfl
    · refine ⟨.many (p.actions.map RepoAction.name),
        parseField_many ?_ (.inr (by decide)) rfl ?_ ?_, ?_⟩
      · rw [hget, actionEntry, if_pos hall]
        exact Syntax.get_cons_self ..
      · rw [ne_eq, List.map_eq_nil_iff]
        exact actions_ne_nil haction
      · intro v hv
        obtain ⟨action, -, rfl⟩ := List.mem_map.mp hv
        dsimp only
        rw [RepoAction.fromName_name]
        rfl
      · exact mapM_map_eq_some RepoAction.fromName_name p.actions
  obtain ⟨y, hy, hactions⟩ := hread
  have hknown : ∀ param ∈ params ++ p.actionEntry, param.1 = ascii "collection" ∨
      param.1 = ascii "action" := by
    intro param hparam
    rcases List.mem_append.mp hparam with hparam | hparam
    · exact .inl (hparams param hparam)
    · right
      rw [actionEntry] at hparam
      split at hparam
      · rw [List.mem_singleton.mp hparam]
      · cases hparam
  rw [fromSyntax, fields, parse_pair_eq_some hknown hcollection hy]
  dsimp only [bind, Option.bind, Parsed.asMany]
  rw [hactions]

/-- The rendered permission is read as one with the collections and actions in normal form. -/
theorem fromStr_toScope (hreads : url.ReadsForms decode) (hcollection : p.collection ≠ [])
    (hvalid : ∀ c ∈ p.collection, isNsidOrWildcard c = true) (haction : p.action ≠ []) :
  AtprotoScope.fromStr url (p.toScope url) = some (.repo ⟨p.collections, p.actions⟩)
  := by
  have hnormal : ∀ c ∈ p.collections, isNsidOrWildcard c = true :=
    fun c hc => hvalid c (mem_of_mem_collections hc)
  have hwell : ∀ params, WellFormed params → WellFormed (params ++ p.actionParams) := by
    intro params hparams param hparam
    rcases List.mem_append.mp hparam with hparam | hparam
    · exact hparams param hparam
    · obtain ⟨hkey, hvalue⟩ := mem_actionParams hparam
      rw [hkey]
      exact ⟨rfl, hvalue⟩
  have hof : ∀ syn, AtprotoScope.ofSyntax url (ascii "repo") syn
      = (fromSyntax syn).map .repo := fun syn => rfl
  rw [toScope]
  split
  · rename_i one hone
    have hmem : isNsidOrWildcard one = true := hnormal one (by rw [hone]; exact List.mem_singleton_self _)
    rw [fromStr_format hreads (by decide), hof, hone]
    · have hread := @fromSyntax_eq_some p (some one) [] [one] haction (by simp) ?_
      · rw [List.nil_append] at hread
        rw [occurrences_actionParams haction (by simp), List.nil_append, hread]
        rfl
      · rw [List.nil_append]
        refine parseField_positional ?_ rfl rfl hmem
        rw [actionEntry]
        split
        · exact Syntax.get_cons_of_ne _ (by decide) _ _
        · rfl
    · rintro value ⟨⟩
      exact utf8_of_isNsidOrWildcard hmem
    · exact hwell [] (by simp [WellFormed])
  · rw [fromStr_format hreads (by decide), hof]
    · have hread := @fromSyntax_eq_some p none [(ascii "collection", .query p.collections)]
        p.collections haction (by simp) ?_
      · rw [occurrences_append, occurrences_new (by simp) (collections_ne_nil hcollection),
          List.nil_append, occurrences_actionParams haction, hread]
        · rfl
        · intro param hparam
          rw [List.mem_singleton.mp hparam]
          exact (by decide : ascii "collection" ≠ ascii "action")
      · exact parseField_many (Syntax.get_cons_self ..) (.inl rfl) rfl
          (collections_ne_nil hcollection) hnormal
    · rintro value ⟨⟩
    · apply hwell
      intro param hparam
      obtain ⟨c, hc, rfl⟩ := List.mem_map.mp hparam
      exact ⟨rfl, utf8_of_isNsidOrWildcard (hnormal c hc)⟩

/-- The normal form allows the same. -/
theorem matchesOp_normal (c : Bytes) (action : RepoAction) :
  matchesOp ⟨p.collections, p.actions⟩ c action = p.matchesOp c action
  := by
  have hactions : p.actions.contains action = p.action.contains action := by
    rw [Bool.eq_iff_iff, List.contains_iff_mem, actions, List.mem_filter]
    have hall : action ∈ RepoAction.all := by cases action <;> decide
    simp [hall]
  have hcollections : (p.collections.any fun c' => c' == ascii "*" || c' == c)
      = p.collection.any fun c' => c' == ascii "*" || c' == c := by
    unfold collections
    split
    · rename_i one hone
      rw [hone]
    · split_ifs with hany
      · obtain ⟨c', hc', heq⟩ := List.any_eq_true.mp hany
        rw [List.any_cons, beq_self_eq_true, Bool.true_or, Bool.true_or, eq_comm, List.any_eq_true]
        exact ⟨c', hc', by rw [heq, Bool.true_or]⟩
      · rw [Bool.eq_iff_iff, List.any_eq_true, List.any_eq_true]
        simp only [mem_sortedUnique]
  rw [matchesOp, matchesOp, hactions, hcollections]

end RepoPermission

/-! ### Remote calls -/

namespace RpcPermission

variable {p : RpcPermission}

theorem methods_ne_nil (h : p.lxm ≠ []) :
  p.methods ≠ []
  := by
  rw [methods]
  split
  · exact List.cons_ne_nil _ _
  · exact sortedUnique_ne_nil h

theorem mem_methods_wildcard :
  (p.methods.any (· == ascii "*")) = p.lxm.any (· == ascii "*")
  := by
  rw [methods]
  split_ifs with h
  · rw [h.2]
    rfl
  · rw [Bool.eq_iff_iff, List.any_eq_true, List.any_eq_true]
    simp only [mem_sortedUnique]

/-- What the parameters of a permission are read as. -/
theorem fromSyntax_eq_some {given : Option Bytes} {params : List (Bytes × Param)} {lxm : List Bytes}
    {aud : Bytes} (haud : isAud url aud = true)
    (hwildcards : ¬(aud = ascii "*" ∧ lxm.any (· == ascii "*") = true))
    (hparams : ∀ param ∈ params, param.1 = ascii "lxm")
    (hlxm : parseField ⟨given, params ++ [(ascii "aud", .query [aud])]⟩ (ascii "lxm")
      { name := ascii "lxm", multiple := true, required := true,
        validate := isNsidOrWildcard } = some (.many lxm)) :
  fromSyntax url ⟨given, params ++ [(ascii "aud", .query [aud])]⟩ = some ⟨aud, lxm⟩
  := by
  have hget : Syntax.get ⟨given, params ++ [(ascii "aud", .query [aud])]⟩ (ascii "aud")
      = some (.query [aud]) := by
    rw [Syntax.get, List.find?_append, List.find?_eq_none.mpr, Option.none_or]
    · rfl
    · intro param hparam
      rw [hparams param hparam]
      decide
  have hread : parseField ⟨given, params ++ [(ascii "aud", .query [aud])]⟩ (ascii "lxm")
      { name := ascii "aud", multiple := false, required := true, validate := isAud url }
        = some (.one aud) :=
    parseField_one hget (.inr (by decide : ascii "aud" ≠ ascii "lxm")) rfl haud
  have hknown : ∀ param ∈ params ++ [(ascii "aud", Param.query [aud])], param.1 = ascii "lxm" ∨
      param.1 = ascii "aud" := by
    intro param hparam
    rcases List.mem_append.mp hparam with hparam | hparam
    · exact .inl (hparams param hparam)
    · right
      rw [List.mem_singleton.mp hparam]
  rw [fromSyntax, fields, parse_pair_eq_some hknown hlxm hread]
  dsimp only [bind, Option.bind, Parsed.asMany, Parsed.asOne]
  rw [if_neg hwildcards]

/-- The rendered permission is read as one with the methods in normal form. -/
theorem fromStr_toScope (hreads : url.ReadsForms decode) (hlxm : p.lxm ≠ [])
    (hvalid : ∀ l ∈ p.lxm, isNsidOrWildcard l = true) (haud : isAud url p.aud = true)
    (hwildcards : ¬(p.aud = ascii "*" ∧ p.lxm.any (· == ascii "*") = true)) :
  AtprotoScope.fromStr url (p.toScope url) = some (.rpc ⟨p.aud, p.methods⟩)
  := by
  have hnormal : ∀ l ∈ p.methods, isNsidOrWildcard l = true :=
    fun l hl => hvalid l (mem_of_mem_methods hl)
  have hof : ∀ syn, AtprotoScope.ofSyntax url (ascii "rpc") syn
      = (fromSyntax url syn).map .rpc := fun syn => rfl
  rw [← mem_methods_wildcard] at hwildcards
  have haudNew : ∀ params : List (Bytes × Param), (∀ param ∈ params, param.1 ≠ ascii "aud") →
      occurrences [(ascii "aud", p.aud)] params = params ++ [(ascii "aud", .query [p.aud])] := by
    intro params hparams
    exact @occurrences_new [p.aud] params _ hparams (List.cons_ne_nil _ _)
  rw [toScope]
  split
  · rename_i one hone
    have hmem : isNsidOrWildcard one = true :=
      hnormal one (by rw [hone]; exact List.mem_singleton_self _)
    rw [fromStr_format hreads (by decide), hof, hone]
    · rw [hone] at hwildcards
      have hread := @fromSyntax_eq_some url (some one) [] [one] p.aud haud hwildcards (by simp) ?_
      · rw [List.nil_append] at hread
        rw [haudNew [] (by simp), List.nil_append, hread]
        rfl
      · exact parseField_positional (Syntax.get_cons_of_ne _ (by decide) _ _) rfl rfl hmem
    · rintro value ⟨⟩
      exact utf8_of_isNsidOrWildcard hmem
    · intro param hparam
      rw [List.mem_singleton.mp hparam]
      exact ⟨rfl, utf8_of_isAud haud⟩
  · rw [fromStr_format hreads (by decide), hof]
    · have hread := @fromSyntax_eq_some url none [(ascii "lxm", .query p.methods)] p.methods p.aud
        haud hwildcards (by simp) ?_
      · rw [occurrences_append, occurrences_new (by simp) (methods_ne_nil hlxm), List.nil_append,
          haudNew, hread]
        · rfl
        · intro param hparam
          rw [List.mem_singleton.mp hparam]
          exact (by decide : ascii "lxm" ≠ ascii "aud")
      · exact parseField_many (Syntax.get_cons_self ..) (.inl rfl) rfl (methods_ne_nil hlxm) hnormal
    · rintro value ⟨⟩
    · intro param hparam
      rcases List.mem_append.mp hparam with hparam | hparam
      · obtain ⟨l, hl, rfl⟩ := List.mem_map.mp hparam
        exact ⟨rfl, utf8_of_isNsidOrWildcard (hnormal l hl)⟩
      · rw [List.mem_singleton.mp hparam]
        exact ⟨rfl, utf8_of_isAud haud⟩

/-- The normal form allows the same. -/
theorem matchesOp_normal (aud lxm : Bytes) :
  matchesOp ⟨p.aud, p.methods⟩ aud lxm = p.matchesOp aud lxm
  := by
  have hmethods : (p.methods.any fun l => l == ascii "*" || l == lxm)
      = p.lxm.any fun l => l == ascii "*" || l == lxm := by
    rw [methods]
    split_ifs with h
    · obtain ⟨l, hl, heq⟩ := List.any_eq_true.mp h.2
      rw [List.any_cons, beq_self_eq_true, Bool.true_or, Bool.true_or, eq_comm, List.any_eq_true]
      exact ⟨l, hl, by rw [heq, Bool.true_or]⟩
    · rw [Bool.eq_iff_iff, List.any_eq_true, List.any_eq_true]
      simp only [mem_sortedUnique]
  rw [matchesOp, matchesOp, hmethods]

end RpcPermission

/-! ### Accounts, identities and permission sets -/

theorem AccountAttr.fromName_name (attr : AccountAttr) :
  AccountAttr.fromName attr.name = some attr
  := by
  cases attr <;> rfl

theorem AccountAction.fromName_name (action : AccountAction) :
  AccountAction.fromName action.name = some action
  := by
  cases action <;> rfl

namespace AccountPermission

variable {p : AccountPermission}

/-- The actions in normal form. -/
def actions (p : AccountPermission) : List AccountAction :=
  if sameValues p.action [.read] then [.read] else p.action.eraseDups

/-- The rendered permission is read as one with the actions in normal form. -/
theorem fromStr_toScope (hreads : url.ReadsForms decode) (haction : p.action ≠ []) :
  AtprotoScope.fromStr url (p.toScope url) = some (.account ⟨p.attr, p.actions⟩)
  := by
  have hof : ∀ syn, AtprotoScope.ofSyntax url (ascii "account") syn
      = (fromSyntax syn).map .account := fun syn => rfl
  have hattr : ∀ params : List (Bytes × Param), (∀ param ∈ params, param.1 = ascii "action") →
      parseField ⟨some p.attr.name, params⟩ (ascii "attr")
        { name := ascii "attr", multiple := false, required := true,
          validate := fun v => (AccountAttr.fromName v).isSome } = some (.one p.attr.name) := by
    intro params hparams
    refine parseField_positional ?_ rfl rfl ?_
    · rw [Syntax.get, List.find?_eq_none.mpr]
      · rfl
      · intro param hparam
        rw [hparams param hparam]
        decide
    · dsimp only
      rw [AccountAttr.fromName_name]
      rfl
  rw [toScope, fromStr_format hreads (by decide), hof]
  · by_cases hsame : sameValues p.action [.read] = true
    · have hnone : occurrences p.actionParams [] = [] := by
        rw [actionParams, if_pos hsame]
        rfl
      have hread := parse_pair_eq_some (by simp) (hattr [] (by simp))
        (parseField_absent rfl (.inr (by decide)) rfl :
          parseField ⟨some p.attr.name, []⟩ (ascii "attr")
            { name := ascii "action", multiple := true, required := false,
              validate := fun v => (AccountAction.fromName v).isSome } = some .absent)
      rw [hnone, fromSyntax, fields, hread]
      dsimp only [bind, Option.bind, Parsed.asOne]
      rw [AccountAttr.fromName_name, actions, if_pos hsame]
      rfl
    · have hnames : p.action.eraseDups.map AccountAction.name ≠ [] := by
        rw [ne_eq, List.map_eq_nil_iff]
        exact eraseDups_ne_nil haction
      have hmany : occurrences p.actionParams []
          = [(ascii "action", .query (p.action.eraseDups.map AccountAction.name))] := by
        have hnew := @occurrences_new _ [] (ascii "action") (by simp) hnames
        rw [List.map_map] at hnew
        rw [actionParams, if_neg hsame]
        exact hnew
      have hvalid : ∀ v ∈ p.action.eraseDups.map AccountAction.name,
          (AccountAction.fromName v).isSome = true := by
        intro v hv
        obtain ⟨action, -, rfl⟩ := List.mem_map.mp hv
        rw [AccountAction.fromName_name]
        rfl
      have hread := parse_pair_eq_some (by simp)
        (hattr [(ascii "action", .query (p.action.eraseDups.map AccountAction.name))] (by simp))
        (parseField_many (Syntax.get_cons_self ..) (.inr (by decide)) rfl hnames hvalid :
          parseField _ (ascii "attr")
            { name := ascii "action", multiple := true, required := false,
              validate := fun v => (AccountAction.fromName v).isSome } = some (.many _))
      rw [hmany, fromSyntax, fields, hread]
      dsimp only [bind, Option.bind, Parsed.asOne]
      rw [AccountAttr.fromName_name, actions, if_neg hsame]
      dsimp only
      have hmapM : actionsOf (.many (p.action.eraseDups.map AccountAction.name))
          = some p.action.eraseDups := mapM_map_eq_some AccountAction.fromName_name _
      rw [hmapM]
      rfl
  · rintro value ⟨⟩
    cases p.attr <;> rfl
  · intro param hparam
    rw [actionParams] at hparam
    split at hparam
    · cases hparam
    · obtain ⟨action, -, rfl⟩ := List.mem_map.mp hparam
      cases action <;> exact ⟨rfl, rfl⟩

/-- The normal form allows the same. -/
theorem matchesOp_normal (attr : AccountAttr) (action : AccountAction) :
  matchesOp ⟨p.attr, p.actions⟩ attr action = p.matchesOp attr action
  := by
  have hactions : ∀ action, p.actions.contains action = p.action.contains action := by
    intro action
    rw [Bool.eq_iff_iff, List.contains_iff_mem, List.contains_iff_mem, actions]
    split_ifs with hsame
    · rw [sameValues, Bool.and_eq_true, List.all_eq_true, List.all_eq_true] at hsame
      constructor
      · intro h
        exact List.contains_iff_mem.mp (hsame.2 action h)
      · intro h
        exact List.contains_iff_mem.mp (hsame.1 action h)
    · exact List.mem_eraseDups
  rw [matchesOp, matchesOp, hactions, hactions]

end AccountPermission

theorem IdentityPermission.fromStr_toScope (hreads : url.ReadsForms decode)
    (p : IdentityPermission) :
  AtprotoScope.fromStr url (p.toScope url) = some (.identity p)
  := by
  rw [toScope, fromStr_format hreads (by decide)]
  · cases p with
    | mk attr => cases attr <;> rfl
  · rintro value ⟨⟩
    cases p.attr <;> rfl
  · intro param hparam
    cases hparam

theorem IncludeScope.fromStr_toScope (hreads : url.ReadsForms decode) {scope : IncludeScope}
    (hnsid : isNsid scope.nsid = true)
    (haud : ∀ aud, scope.aud = some aud → isAtprotoDidRef url aud = true) :
  AtprotoScope.fromStr url (scope.toScope url) = some (.incl scope)
  := by
  have hof : ∀ syn, AtprotoScope.ofSyntax url (ascii "include") syn
      = (fromSyntax url syn).map .incl := fun syn => rfl
  have hread : ∀ params : List (Bytes × Param), (∀ param ∈ params, param.1 = ascii "aud") →
      parseField ⟨some scope.nsid, params⟩ (ascii "nsid")
        { name := ascii "nsid", multiple := false, required := true, validate := isNsid }
          = some (.one scope.nsid) := by
    intro params hparams
    refine parseField_positional ?_ rfl rfl hnsid
    rw [Syntax.get, List.find?_eq_none.mpr]
    · rfl
    · intro param hparam
      rw [hparams param hparam]
      decide
  rw [toScope, fromStr_format hreads (by decide), hof]
  · cases scope with
    | mk nsid aud =>
        cases aud with
        | none =>
            have hparse := parse_pair_eq_some (by simp) (hread [] (by simp))
              (parseField_absent rfl (.inr (by decide : ascii "aud" ≠ ascii "nsid")) rfl :
                parseField ⟨some nsid, []⟩ (ascii "nsid")
                  { name := ascii "aud", multiple := false, required := false,
                    validate := isAtprotoDidRef url } = some .absent)
            have hnone : occurrences ((none : Option Bytes).toList.map fun aud => (ascii "aud", aud)) []
                = [] := rfl
            rw [hnone, fromSyntax, fields, hparse]
            rfl
        | some aud =>
            have hparse := parse_pair_eq_some (by simp)
              (hread [(ascii "aud", .query [aud])] (by simp))
              (parseField_one (Syntax.get_cons_self ..)
                (.inr (by decide : ascii "aud" ≠ ascii "nsid")) rfl (haud aud rfl) :
                parseField ⟨some nsid, [(ascii "aud", .query [aud])]⟩ (ascii "nsid")
                  { name := ascii "aud", multiple := false, required := false,
                    validate := isAtprotoDidRef url } = some (.one aud))
            have hone : occurrences ((some aud).toList.map fun aud => (ascii "aud", aud)) []
                = [(ascii "aud", .query [aud])] := rfl
            rw [hone, fromSyntax, fields, hparse]
            rfl
  · rintro value ⟨⟩
    exact (isAscii_of_isNsid hnsid).utf8
  · intro param hparam
    obtain ⟨aud, hmem, rfl⟩ := List.mem_map.mp hparam
    exact ⟨rfl, (isAscii_of_isAtprotoDidRef (haud aud (Option.mem_toList.mp hmem))).utf8⟩

/-! ### Blobs -/

theorem isTypeSlashSubtype_iff :
  isTypeSlashSubtype value = true ↔ ∃ ty subtype, value = ty ++ char '/' :: subtype ∧
    char '/' ∉ ty ∧ char '/' ∉ subtype ∧ ty ≠ [] ∧ subtype ≠ [] ∧ char ' ' ∉ value
  := by
  rw [isTypeSlashSubtype.eq_def]
  constructor
  · intro h
    split at h
    · rename_i ty subtype hsplit
      simp only [Bool.and_eq_true, decide_eq_true_eq, Bool.not_eq_true',
        List.contains_eq_mem, decide_eq_false_iff_not] at h
      obtain ⟨⟨⟨hty, hsubtype⟩, hslash⟩, hspace⟩ := h
      exact ⟨ty, subtype, splitOnce_some hsplit, not_mem_of_splitOnce hsplit, hslash, hty, hsubtype,
        hspace⟩
    · cases h
  · rintro ⟨ty, subtype, rfl, hty, hslash, htyne, hsubtype, hspace⟩
    rw [splitOnce_append hty]
    simp only [Bool.and_eq_true, decide_eq_true_eq, Bool.not_eq_true', List.contains_eq_mem,
      decide_eq_false_iff_not]
    exact ⟨⟨⟨htyne, hsubtype⟩, hslash⟩, hspace⟩

theorem not_isAsciiAlphabetic {b : UInt8} (h : b ∈ ascii "/* ") :
  b < 0x80 ∧ isAsciiAlphabetic b = false
  := by
  have hall : ∀ b ∈ ascii "/* ", b < 0x80 ∧ isAsciiAlphabetic b = false := by decide +kernel
  exact hall b h

theorem isTypeSlashSubtype_of_lowers (hlowers : Lowers bs bs') (h : isTypeSlashSubtype bs = true) :
  isTypeSlashSubtype bs' = true
  := by
  obtain ⟨hslash, hslash'⟩ := @not_isAsciiAlphabetic (char '/') (by decide)
  obtain ⟨hspace, hspace'⟩ := @not_isAsciiAlphabetic (char ' ') (by decide)
  obtain ⟨ty, subtype, heq, hty, hsubtype, htyne, hsubtypene, hplain⟩ := isTypeSlashSubtype_iff.mp h
  obtain ⟨ty', subtype', rfl, hty', hsubtype'⟩ := hlowers.append_cons hslash hslash' heq
  refine isTypeSlashSubtype_iff.mpr ⟨ty', subtype', rfl, ?_, ?_, ?_, ?_, ?_⟩
  · rwa [hty'.mem_iff hslash hslash']
  · rwa [hsubtype'.mem_iff hslash hslash']
  · rwa [ne_eq, hty'.eq_nil_iff]
  · rwa [ne_eq, hsubtype'.eq_nil_iff]
  · rwa [hlowers.mem_iff hspace hspace']

/-- A pattern in lower case is a pattern. -/
theorem isAccept_of_lowers (hlowers : Lowers bs bs') (h : isAccept bs = true) :
  isAccept bs' = true
  := by
  obtain ⟨hslash, hslash'⟩ := @not_isAsciiAlphabetic (char '/') (by decide)
  obtain ⟨hstar, hstar'⟩ := @not_isAsciiAlphabetic (char '*') (by decide)
  have hsuffix : ∀ pre : Bytes, bs = pre ++ ascii "/*" → (ascii "/*").isSuffixOf bs' = true := by
    intro pre heq
    obtain ⟨pre', star', rfl, -, hstars⟩ :=
      @Lowers.append_cons (char '/') bs bs' pre [char '*'] hlowers hslash hslash' heq
    rw [hstars.singleton hstar hstar', List.isSuffixOf_iff_suffix]
    exact ⟨pre', rfl⟩
  rw [isAccept, Bool.or_eq_true, beq_iff_eq] at h
  rw [isAccept, Bool.or_eq_true, beq_iff_eq]
  rcases h with rfl | h
  · left
    obtain ⟨pre', star', rfl, hpre, hstars⟩ := @Lowers.append_cons (char '/') _ bs' [char '*']
      [char '*'] hlowers hslash hslash' (by decide)
    rw [hpre.singleton hstar hstar', hstars.singleton hstar hstar']
    decide
  · right
    rw [Bool.and_eq_true, Bool.or_eq_true, Bool.not_eq_true', List.contains_eq_mem,
      decide_eq_false_iff_not] at h
    rw [Bool.and_eq_true, Bool.or_eq_true, Bool.not_eq_true', List.contains_eq_mem,
      decide_eq_false_iff_not]
    refine ⟨isTypeSlashSubtype_of_lowers hlowers h.1, ?_⟩
    rcases h.2 with hplain | hends
    · left
      rwa [hlowers.mem_iff hstar hstar']
    · right
      obtain ⟨pre, heq⟩ := List.isSuffixOf_iff_suffix.mp hends
      exact hsuffix pre heq.symm

/-- What a pattern matches. -/
theorem matchesAccept_eq_true :
  matchesAccept accept mime = true ↔ isMime mime = true ∧ (accept = ascii "*/*" ∨
    ((ascii "/*").isSuffixOf accept = true ∧ accept.dropLast.isPrefixOf mime = true) ∨
      ((ascii "/*").isSuffixOf accept = false ∧ accept = mime))
  := by
  have hany : (ascii "/*").isSuffixOf (ascii "*/*") = true := by decide
  rw [matchesAccept]
  cases hmime : isMime mime with
  | false => simp
  | true =>
      by_cases heq : accept = ascii "*/*"
      · simp [heq]
      · cases hends : (ascii "/*").isSuffixOf accept with
        | false => simp [heq]
        | true => simp [heq]

/-- A pattern is matched if the pattern for its whole type is. -/
theorem matchesAccept_type (hends : (ascii "/*").isSuffixOf a = false)
    (h : matchesAccept a mime = true) :
  matchesAccept (a.takeWhile (· ≠ char '/') ++ ascii "/*") mime = true
  := by
  obtain ⟨hmime, h⟩ := matchesAccept_eq_true.mp h
  have heq : a = mime := by
    rcases h with rfl | ⟨hends', -⟩ | ⟨-, heq⟩
    · have hends' : (ascii "/*").isSuffixOf (ascii "*/*") = true := by decide
      rw [hends'] at hends
      cases hends
    · rw [hends] at hends'
      cases hends'
    · exact heq
  subst heq
  have htype : isTypeSlashSubtype a = true := (Bool.and_eq_true_iff.mp hmime).1
  obtain ⟨ty, subtype, ha, hty, -, -, -, -⟩ := isTypeSlashSubtype_iff.mp htype
  have htake : a.takeWhile (· ≠ char '/') = ty := by
    have hall : ∀ b ∈ ty, decide (b ≠ char '/') = true := by
      intro b hb
      apply decide_eq_true
      rintro rfl
      exact hty hb
    rw [ha, List.takeWhile_append_of_pos hall, List.takeWhile_cons_of_neg (by decide), List.append_nil]
  refine matchesAccept_eq_true.mpr ⟨hmime, .inr (.inl ⟨?_, ?_⟩)⟩
  · rw [List.isSuffixOf_iff_suffix]
    exact List.suffix_append ..
  · have hsplit : ty ++ ascii "/*" = (ty ++ [char '/']) ++ [char '*'] := by
      rw [List.append_assoc]
      rfl
    rw [htake, hsplit, List.dropLast_concat, List.isPrefixOf_iff_prefix, ha]
    exact ⟨subtype, by rw [List.append_assoc]; rfl⟩

namespace BlobPermission

variable {tables : UnicodeTables} {p : BlobPermission}

/-- The permission with its patterns in lower case. -/
def lowered (tables : UnicodeTables) (p : BlobPermission) : BlobPermission :=
  ⟨p.accept.map (toLowercase tables)⟩

theorem mem_patterns {a : Bytes} (hany : p.accept.any (· == ascii "*/*") = false) :
  a ∈ p.patterns tables ↔ a ∈ (p.lowered tables).accept ∧
    isMinimal (p.lowered tables).accept a = true
  := by
  rw [patterns, hany, if_neg Bool.false_ne_true]
  dsimp only
  rw [List.mem_insertionSort, List.mem_filter, lowered]

theorem toLowercase_any :
  toLowercase tables (ascii "*/*") = ascii "*/*"
  := rfl

/-- The rendered patterns match what the patterns in lower case do. -/
theorem any_patterns (mime : Bytes) :
  ((p.patterns tables).any (matchesAccept · mime)) = (p.lowered tables).matchesOp mime
  := by
  rw [matchesOp, Bool.eq_iff_iff, List.any_eq_true, List.any_eq_true]
  cases hany : p.accept.any (· == ascii "*/*") with
  | true =>
      rw [patterns, hany, if_pos rfl]
      constructor
      · rintro ⟨a, ha, hmatches⟩
        rw [List.mem_singleton.mp ha] at hmatches
        obtain ⟨a', ha', heq⟩ := List.any_eq_true.mp hany
        rw [beq_iff_eq] at heq
        rw [heq] at ha'
        exact ⟨ascii "*/*", List.mem_map.mpr ⟨_, ha', toLowercase_any⟩, hmatches⟩
      · rintro ⟨a, -, hmatches⟩
        exact ⟨ascii "*/*", List.mem_singleton_self _,
          matchesAccept_eq_true.mpr ⟨(matchesAccept_eq_true.mp hmatches).1, .inl rfl⟩⟩
  | false =>
      constructor
      · rintro ⟨a, ha, hmatches⟩
        exact ⟨a, ((mem_patterns hany).mp ha).1, hmatches⟩
      · rintro ⟨a, ha, hmatches⟩
        by_cases hminimal : isMinimal (p.lowered tables).accept a = true
        · exact ⟨a, (mem_patterns hany).mpr ⟨ha, hminimal⟩, hmatches⟩
        · -- the pattern for the whole type is there instead
          rw [isMinimal, Bool.or_eq_true, not_or, Bool.not_eq_true, Bool.not_eq_true,
            Bool.not_eq_false', List.contains_iff_mem] at hminimal
          refine ⟨_, (mem_patterns hany).mpr ⟨hminimal.2, ?_⟩,
            matchesAccept_type hminimal.1 hmatches⟩
          rw [isMinimal, List.isSuffixOf_iff_suffix.mpr (List.suffix_append ..), Bool.true_or]

theorem patterns_ne_nil (h : p.accept ≠ []) :
  p.patterns tables ≠ []
  := by
  cases hany : p.accept.any (· == ascii "*/*") with
  | true =>
      rw [patterns, hany, if_pos rfl]
      exact List.cons_ne_nil _ _
  | false =>
      obtain ⟨a, ha⟩ := List.exists_mem_of_ne_nil _ h
      have ha' : toLowercase tables a ∈ (p.lowered tables).accept := List.mem_map_of_mem ha
      by_cases hminimal : isMinimal (p.lowered tables).accept (toLowercase tables a) = true
      · exact List.ne_nil_of_mem ((mem_patterns hany).mpr ⟨ha', hminimal⟩)
      · rw [isMinimal, Bool.or_eq_true, not_or, Bool.not_eq_true, Bool.not_eq_true,
          Bool.not_eq_false', List.contains_iff_mem] at hminimal
        apply List.ne_nil_of_mem ((mem_patterns hany).mpr ⟨hminimal.2, _⟩)
        rw [isMinimal, List.isSuffixOf_iff_suffix.mpr (List.suffix_append ..), Bool.true_or]

/-- The rendered patterns are patterns. -/
theorem patterns_valid (htables : tables.LowersLetters)
    (hvalid : ∀ a ∈ p.accept, isAccept a = true ∧ utf8 a = true) :
  ∀ a ∈ p.patterns tables, isAccept a = true ∧ utf8 a = true
  := by
  intro a ha
  cases hany : p.accept.any (· == ascii "*/*") with
  | true =>
      rw [patterns, hany, if_pos rfl] at ha
      rw [List.mem_singleton.mp ha]
      exact ⟨by decide, by decide⟩
  | false =>
      obtain ⟨a', ha', rfl⟩ := List.mem_map.mp ((mem_patterns hany).mp ha).1
      obtain ⟨haccept, hutf8⟩ := hvalid a' ha'
      exact ⟨isAccept_of_lowers (lowers_toLowercase htables hutf8) haccept,
        utf8_toLowercase htables hutf8⟩

/-- The rendered permission is read as one with the patterns in normal form. -/
theorem fromStr_toScope (hreads : url.ReadsForms decode) (htables : tables.LowersLetters)
    (haccept : p.accept ≠ []) (hvalid : ∀ a ∈ p.accept, isAccept a = true ∧ utf8 a = true) :
  AtprotoScope.fromStr url (p.toScope url tables)
    = some (.blob ⟨(p.patterns tables).eraseDups⟩)
  := by
  have hof : ∀ syn, AtprotoScope.ofSyntax url (ascii "blob") syn
      = (fromSyntax syn).map .blob := fun syn => rfl
  have hpatterns := @patterns_valid tables p htables hvalid
  rw [toScope]
  split
  · rename_i one hone
    obtain ⟨hmem, hutf8⟩ := hpatterns one (by rw [hone]; exact List.mem_singleton_self _)
    rw [fromStr_format hreads (by decide), hof, hone]
    · have hread := parse_singleton (by simp)
        (parseField_positional rfl rfl rfl hmem :
          parseField ⟨some one, []⟩ (ascii "accept")
            { name := ascii "accept", multiple := true, required := true, validate := isAccept }
              = some (.many [one]))
      have hnone : occurrences [] [] = [] := rfl
      rw [hnone, fromSyntax, fields, hread]
      rfl
    · rintro value ⟨⟩
      exact hutf8
    · intro param hparam
      cases hparam
  · rw [fromStr_format hreads (by decide), hof]
    · have hne : (p.patterns tables).eraseDups ≠ [] :=
        eraseDups_ne_nil (patterns_ne_nil haccept)
      have hread := parse_singleton (by simp)
        (parseField_many (Syntax.get_cons_self ..) (.inl rfl) rfl hne
          (fun a ha => (hpatterns a (List.mem_eraseDups.mp ha)).1) :
          parseField ⟨none, [(ascii "accept", .query (p.patterns tables).eraseDups)]⟩
            (ascii "accept")
            { name := ascii "accept", multiple := true, required := true, validate := isAccept }
              = some (.many (p.patterns tables).eraseDups))
      rw [occurrences_new (by simp) hne, List.nil_append, fromSyntax, fields, hread]
      rfl
    · rintro value ⟨⟩
    · intro param hparam
      obtain ⟨a, ha, rfl⟩ := List.mem_map.mp hparam
      exact ⟨rfl, (hpatterns a (List.mem_eraseDups.mp ha)).2⟩

/-- The normal form allows what the patterns in lower case do. -/
theorem matchesOp_normal (mime : Bytes) :
  matchesOp ⟨(p.patterns tables).eraseDups⟩ mime = (p.lowered tables).matchesOp mime
  := by
  rw [← any_patterns, matchesOp, Bool.eq_iff_iff, List.any_eq_true, List.any_eq_true]
  simp only [List.mem_eraseDups]

end BlobPermission

end Shrike.OAuth
