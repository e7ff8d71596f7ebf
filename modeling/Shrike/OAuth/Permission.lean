import Shrike.OAuth.Syntax

/-!
# Permissions

The permissions that a scope can grant, one for each resource, and the operations that a list
of scope values allows.
-/

namespace Shrike.OAuth

open Bytes

/-! ### Accounts -/

/-- An attribute of an account. -/
inductive AccountAttr where
  | email
  | repo
  | status
  deriving DecidableEq

def AccountAttr.fromName (name : Bytes) : Option AccountAttr :=
  if name = ascii "email" then some .email
  else if name = ascii "repo" then some .repo
  else if name = ascii "status" then some .status
  else none

/-- An action on an account. -/
inductive AccountAction where
  | read
  | manage
  deriving DecidableEq

def AccountAction.fromName (name : Bytes) : Option AccountAction :=
  if name = ascii "read" then some .read
  else if name = ascii "manage" then some .manage
  else none

/-- Access to the hosting details of the account. -/
structure AccountPermission where
  attr : AccountAttr
  action : List AccountAction
  deriving DecidableEq

namespace AccountPermission

def fields : List Field :=
  [{ name := ascii "attr", multiple := false, required := true,
     validate := fun v => (AccountAttr.fromName v).isSome },
   { name := ascii "action", multiple := true, required := false,
     validate := fun v => (AccountAction.fromName v).isSome }]

/-- The actions, or the default. -/
def actionsOf : Parsed → Option (List AccountAction)
  | .absent => some [.read]
  | parsed => do (← parsed.asMany).mapM AccountAction.fromName

def fromSyntax (syn : Syntax) : Option AccountPermission := do
  match ← parse syn fields (ascii "attr") with
  | attr :: action :: _ => do
      let attr ← AccountAttr.fromName (← attr.asOne)
      let action ← actionsOf action
      some { attr, action }
  | _ => none

/-- Whether the permission allows an action on an attribute. -/
def matchesOp (p : AccountPermission) (attr : AccountAttr) (action : AccountAction) : Bool :=
  p.attr == attr && (p.action.contains .manage || p.action.contains action)

end AccountPermission

/-! ### Blobs -/

/-- Uploading blobs of some MIME types. -/
structure BlobPermission where
  accept : List Bytes
  deriving DecidableEq

namespace BlobPermission

def fields : List Field :=
  [{ name := ascii "accept", multiple := true, required := true, validate := isAccept }]

def fromSyntax (syn : Syntax) : Option BlobPermission := do
  let values ← parse syn fields (ascii "accept")
  let accept ← (← values.getLast?).asMany
  some { accept }

/-- Whether the permission allows uploading a blob of a MIME type. -/
def matchesOp (p : BlobPermission) (mime : Bytes) : Bool := p.accept.any (matchesAccept · mime)

end BlobPermission

/-! ### Identities -/

/-- An attribute of an identity. -/
inductive IdentityAttr where
  | handle
  | any
  deriving DecidableEq

def IdentityAttr.fromName (name : Bytes) : Option IdentityAttr :=
  if name = ascii "handle" then some .handle
  else if name = ascii "*" then some .any
  else none

/-- Control of the DID document and the handle. -/
structure IdentityPermission where
  attr : IdentityAttr
  deriving DecidableEq

namespace IdentityPermission

def fields : List Field :=
  [{ name := ascii "attr", multiple := false, required := true,
     validate := fun v => (IdentityAttr.fromName v).isSome }]

def fromSyntax (syn : Syntax) : Option IdentityPermission := do
  let values ← parse syn fields (ascii "attr")
  let attr ← (← values.getLast?).asOne
  some { attr := ← IdentityAttr.fromName attr }

/-- Whether the permission allows control of an attribute. -/
def matchesOp (p : IdentityPermission) (attr : IdentityAttr) : Bool :=
  p.attr == .any || p.attr == attr

end IdentityPermission

/-! ### Repositories -/

/-- A write of a record. -/
inductive RepoAction where
  | create
  | update
  | delete
  deriving DecidableEq

namespace RepoAction

def all : List RepoAction := [.create, .update, .delete]

def name : RepoAction → Bytes
  | .create => ascii "create"
  | .update => ascii "update"
  | .delete => ascii "delete"

def fromName (name : Bytes) : Option RepoAction :=
  if name = ascii "create" then some .create
  else if name = ascii "update" then some .update
  else if name = ascii "delete" then some .delete
  else none

end RepoAction

/-- Writing records in some collections. -/
structure RepoPermission where
  collection : List Bytes
  action : List RepoAction
  deriving DecidableEq

namespace RepoPermission

def fields : List Field :=
  [{ name := ascii "collection", multiple := true, required := true, validate := isNsidOrWildcard },
   { name := ascii "action", multiple := true, required := false,
     validate := fun v => (RepoAction.fromName v).isSome }]

/-- The actions, or the default. -/
def actionsOf : Parsed → Option (List RepoAction)
  | .absent => some RepoAction.all
  | parsed => do (← parsed.asMany).mapM RepoAction.fromName

def fromSyntax (syn : Syntax) : Option RepoPermission := do
  match ← parse syn fields (ascii "collection") with
  | collection :: action :: _ => do
      let collection ← collection.asMany
      let action ← actionsOf action
      some { collection, action }
  | _ => none

/-- Whether the permission allows an action on records of a collection. -/
def matchesOp (p : RepoPermission) (collection : Bytes) (action : RepoAction) : Bool :=
  p.action.contains action && p.collection.any fun c => c == ascii "*" || c == collection

/-- The collections in normal form. -/
def collections (p : RepoPermission) : List Bytes :=
  match p.collection with
  | [one] => [one]
  | many => if many.any (· == ascii "*") then [ascii "*"] else sortedUnique many

/-- The actions in normal form. -/
def actions (p : RepoPermission) : List RepoAction := RepoAction.all.filter (p.action.contains ·)

/-- The named parameters of the rendered permission, besides the collections. -/
def actionParams (p : RepoPermission) : List (Bytes × Bytes) :=
  if p.actions ≠ RepoAction.all then p.actions.map fun a => (ascii "action", a.name) else []

/-- Render the permission. -/
def toScope (url : UrlLibrary) (p : RepoPermission) : Bytes :=
  match p.collections with
  | [one] => format url (ascii "repo") (some one) p.actionParams
  | many =>
      format url (ascii "repo") none (many.map (fun c => (ascii "collection", c)) ++ p.actionParams)

end RepoPermission

/-! ### Remote calls -/

/-- Calls of some methods of a service. -/
structure RpcPermission where
  aud : Bytes
  lxm : List Bytes
  deriving DecidableEq

namespace RpcPermission

def fields (url : UrlLibrary) : List Field :=
  [{ name := ascii "lxm", multiple := true, required := true, validate := isNsidOrWildcard },
   { name := ascii "aud", multiple := false, required := true, validate := isAud url }]

def fromSyntax (url : UrlLibrary) (syn : Syntax) : Option RpcPermission := do
  match ← parse syn (fields url) (ascii "lxm") with
  | lxm :: aud :: _ => do
      let lxm ← lxm.asMany
      let aud ← aud.asOne
      if aud = ascii "*" ∧ lxm.any (· == ascii "*") then none else some { aud, lxm }
  | _ => none

/-- Whether the permission allows the call of a method of a service. -/
def matchesOp (p : RpcPermission) (aud lxm : Bytes) : Bool :=
  (p.aud == ascii "*" || p.aud == aud) && p.lxm.any fun l => l == ascii "*" || l == lxm

/-- The methods in normal form. -/
def methods (p : RpcPermission) : List Bytes :=
  if 1 < p.lxm.length ∧ p.lxm.any (· == ascii "*") then [ascii "*"] else sortedUnique p.lxm

/-- Render the permission. -/
def toScope (url : UrlLibrary) (p : RpcPermission) : Bytes :=
  match p.methods with
  | [one] => format url (ascii "rpc") (some one) [(ascii "aud", p.aud)]
  | many =>
      format url (ascii "rpc") none
        (many.map (fun l => (ascii "lxm", l)) ++ [(ascii "aud", p.aud)])

end RpcPermission

/-! ### Permission sets -/

/-- A request for the permissions of a permission set. -/
structure IncludeScope where
  nsid : Bytes
  aud : Option Bytes
  deriving DecidableEq

namespace IncludeScope

def fields (url : UrlLibrary) : List Field :=
  [{ name := ascii "nsid", multiple := false, required := true, validate := isNsid },
   { name := ascii "aud", multiple := false, required := false, validate := isAtprotoDidRef url }]

/-- The audience, if there is one. -/
def audOf : Parsed → Option (Option Bytes)
  | .absent => some none
  | parsed => parsed.asOne.map some

def fromSyntax (url : UrlLibrary) (syn : Syntax) : Option IncludeScope := do
  match ← parse syn (fields url) (ascii "nsid") with
  | nsid :: aud :: _ => do
      let nsid ← nsid.asOne
      let aud ← audOf aud
      some { nsid, aud }
  | _ => none

/-- Parse an include scope. -/
def fromStr (url : UrlLibrary) (scope : Bytes) : Option IncludeScope := do
  fromSyntax url (← Syntax.fromScope url scope (ascii "include"))

end IncludeScope

/-! ### Scope values -/

/-- One value of a scope. -/
inductive AtprotoScope where
  | atproto
  | transitionGeneric
  | transitionEmail
  | transitionChatBsky
  | account (p : AccountPermission)
  | blob (p : BlobPermission)
  | identity (p : IdentityPermission)
  | incl (scope : IncludeScope)
  | repo (p : RepoPermission)
  | rpc (p : RpcPermission)
  deriving DecidableEq

/-- The resource of a scope value. -/
def resourceOf (value : Bytes) : Bytes := value.takeWhile fun b => b ≠ char ':' ∧ b ≠ char '?'

/-- Parse a scope value. -/
def AtprotoScope.fromStr (url : UrlLibrary) (value : Bytes) : Option AtprotoScope :=
  if value = ascii "atproto" then some .atproto
  else if value = ascii "transition:generic" then some .transitionGeneric
  else if value = ascii "transition:email" then some .transitionEmail
  else if value = ascii "transition:chat.bsky" then some .transitionChatBsky
  else do
    let syn ← Syntax.fromScope url value (resourceOf value)
    if resourceOf value = ascii "account" then (AccountPermission.fromSyntax syn).map .account
    else if resourceOf value = ascii "blob" then (BlobPermission.fromSyntax syn).map .blob
    else if resourceOf value = ascii "identity" then
      (IdentityPermission.fromSyntax syn).map .identity
    else if resourceOf value = ascii "include" then (IncludeScope.fromSyntax url syn).map .incl
    else if resourceOf value = ascii "repo" then (RepoPermission.fromSyntax syn).map .repo
    else if resourceOf value = ascii "rpc" then (RpcPermission.fromSyntax url syn).map .rpc
    else none

/-- The permissions of a granted scope. -/
structure ScopePermissions where
  scopes : List Bytes
  transition : Bool
  account : List AccountPermission
  blob : List BlobPermission
  identity : List IdentityPermission
  repo : List RepoPermission
  rpc : List RpcPermission

namespace ScopePermissions

/-- No permissions. -/
def empty : ScopePermissions where
  scopes := []
  transition := false
  account := []
  blob := []
  identity := []
  repo := []
  rpc := []

/-- Add a scope value, unless it is empty or was added before. -/
def add (url : UrlLibrary) (perms : ScopePermissions) (scope : Bytes) : ScopePermissions :=
  if scope = [] ∨ scope ∈ perms.scopes then perms
  else
    let perms := { perms with scopes := perms.scopes ++ [scope] }
    match AtprotoScope.fromStr url scope with
    | some (.account p) => { perms with account := perms.account ++ [p] }
    | some (.blob p) => { perms with blob := perms.blob ++ [p] }
    | some (.identity p) => { perms with identity := perms.identity ++ [p] }
    | some (.repo p) => { perms with repo := perms.repo ++ [p] }
    | some (.rpc p) => { perms with rpc := perms.rpc ++ [p] }
    | _ => perms

/-- The permissions of some scope values. -/
def fromScopes (url : UrlLibrary) (scopes : List Bytes) : ScopePermissions :=
  scopes.foldl (add url) empty

/-- The permissions of a scope. -/
def new (url : UrlLibrary) (scope : Bytes) : ScopePermissions :=
  fromScopes url (scope.splitOn (char ' '))

/-- The permissions of a scope, of which the transition scopes are honored. -/
def withTransitionScopes (url : UrlLibrary) (scope : Bytes) : ScopePermissions :=
  { new url scope with transition := true }

/-- Whether a scope value was granted. -/
def has (perms : ScopePermissions) (scope : Bytes) : Bool := perms.scopes.contains scope

def hasTransitionGeneric (perms : ScopePermissions) : Bool :=
  perms.transition && perms.has (ascii "transition:generic")

def hasTransitionEmail (perms : ScopePermissions) : Bool :=
  perms.transition && perms.has (ascii "transition:email")

def hasTransitionChatBsky (perms : ScopePermissions) : Bool :=
  perms.transition && perms.has (ascii "transition:chat.bsky")

def allowsAccount (perms : ScopePermissions) (attr : AccountAttr) (action : AccountAction) : Bool :=
  (attr == .email && action == .read && perms.hasTransitionEmail) ||
    perms.account.any (·.matchesOp attr action)

def allowsIdentity (perms : ScopePermissions) (attr : IdentityAttr) : Bool :=
  perms.identity.any (·.matchesOp attr)

def allowsBlob (perms : ScopePermissions) (mime : Bytes) : Bool :=
  perms.hasTransitionGeneric || perms.blob.any (·.matchesOp mime)

def allowsRepo (perms : ScopePermissions) (collection : Bytes) (action : RepoAction) : Bool :=
  perms.hasTransitionGeneric || perms.repo.any (·.matchesOp collection action)

def allowsRpc (perms : ScopePermissions) (aud lxm : Bytes) : Bool :=
  let chat := (ascii "chat.bsky.").isPrefixOf lxm
  (perms.hasTransitionGeneric && !chat) || (perms.hasTransitionChatBsky && chat) ||
    perms.rpc.any (·.matchesOp aud lxm)

end ScopePermissions

end Shrike.OAuth
