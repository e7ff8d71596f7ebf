import Shrike.OAuth.Escalation
import Shrike.OAuth.Normalize

/-!
# Missing scopes

A request that is not allowed names the scope value that would allow it. Granting that value does
allow the request, unless it is the upload of a blob whose MIME type is not in lower case.
-/

namespace Shrike.OAuth

open Bytes

/-- A request is not allowed by the granted scopes. -/
structure ScopeMissingError where
  scope : Bytes
  deriving DecidableEq

section

variable (url : UrlLibrary) (tables : UnicodeTables)

/-! ### The scopes that are needed -/

/-- The scope that would allow an action on an attribute of the account. -/
def AccountPermission.scopeNeededFor (attr : AccountAttr) (action : AccountAction) : Bytes :=
  toScope url { attr, action := [action] }

/-- The scope that would allow control of an attribute of the identity. -/
def IdentityPermission.scopeNeededFor (attr : IdentityAttr) : Bytes := toScope url { attr }

/-- The scope that would allow uploading a blob of a MIME type. -/
def BlobPermission.scopeNeededFor (mime : Bytes) : Bytes := toScope url tables { accept := [mime] }

/-- The scope that would allow an action on records of a collection. -/
def RepoPermission.scopeNeededFor (collection : Bytes) (action : RepoAction) : Bytes :=
  toScope url { collection := [collection], action := [action] }

/-- The scope that would allow calling a method of a service. -/
def RpcPermission.scopeNeededFor (aud lxm : Bytes) : Bytes := toScope url { aud, lxm := [lxm] }

/-- What is allowed passes, and what is not names the scope that is needed. -/
def check (allowed : Bool) (needed : Bytes) : Except ScopeMissingError Unit :=
  if allowed then .ok () else .error { scope := needed }

namespace ScopePermissions

variable (perms : ScopePermissions)

def assertAccount (attr : AccountAttr) (action : AccountAction) : Except ScopeMissingError Unit :=
  check (perms.allowsAccount attr action) (AccountPermission.scopeNeededFor url attr action)

def assertIdentity (attr : IdentityAttr) : Except ScopeMissingError Unit :=
  check (perms.allowsIdentity attr) (IdentityPermission.scopeNeededFor url attr)

def assertBlob (mime : Bytes) : Except ScopeMissingError Unit :=
  check (perms.allowsBlob mime) (BlobPermission.scopeNeededFor url tables mime)

def assertRepo (collection : Bytes) (action : RepoAction) : Except ScopeMissingError Unit :=
  check (perms.allowsRepo collection action)
    (RepoPermission.scopeNeededFor url collection action)

def assertRpc (aud lxm : Bytes) : Except ScopeMissingError Unit :=
  check (perms.allowsRpc aud lxm) (RpcPermission.scopeNeededFor url aud lxm)

/-- Check that an operation is allowed. -/
def assertOp : Operation → Except ScopeMissingError Unit
  | .account attr action => perms.assertAccount url attr action
  | .identity attr => perms.assertIdentity url attr
  | .blob mime => perms.assertBlob url tables mime
  | .repo collection action => perms.assertRepo url collection action
  | .rpc aud lxm => perms.assertRpc url aud lxm

end ScopePermissions

/-! ### What they allow -/

namespace Operation

/-- The parameters of an operation are valid: a collection and a method are NSIDs, a MIME type is
concrete, and a service is given by a DID with a fragment. -/
def Valid : Operation → Prop
  | .blob mime => isMime mime = true ∧ utf8 mime = true
  | .repo collection _ => isNsid collection = true
  | .rpc aud lxm => isAtprotoDidRef url aud = true ∧ isNsid lxm = true
  | _ => True

/-- The permission that an operation needs. -/
def needed : Operation → AtprotoScope
  | .account attr action => .account { attr, action := [action] }
  | .identity attr => .identity { attr }
  | .blob mime => .blob { accept := [mime] }
  | .repo collection action => .repo { collection := [collection], action := [action] }
  | .rpc aud lxm => .rpc { aud, lxm := [lxm] }

/-- The operation is not the upload of a blob whose MIME type is not in lower case. -/
def InLowercase : Operation → Prop
  | .blob mime => toLowercase tables mime = mime
  | _ => True

end Operation

end

variable {url : UrlLibrary} {tables : UnicodeTables} {decode : Bytes → Bytes}

theorem assertOp_eq (perms : ScopePermissions) (op : Operation) :
  perms.assertOp url tables op = check (perms.allows op) (op.needed.toScope url tables)
  := by
  cases op <;> rfl

variable {allowed transition : Bool} {v mime needed : Bytes}

theorem check_eq_ok :
  check allowed needed = .ok () ↔ allowed = true
  := by
  cases allowed <;> simp [check]

theorem check_eq_error {e : ScopeMissingError} :
  check allowed needed = .error e ↔ allowed = false ∧ e = ⟨needed⟩
  := by
  cases allowed with
  | true => simp [check]
  | false => simp [check, eq_comm]

variable {op : Operation}

/-- The permission that a valid operation needs is valid. -/
theorem Operation.valid_needed (h : op.Valid url) :
  op.needed.Valid url
  := by
  cases op with
  | account attr action => exact List.cons_ne_nil _ _
  | identity attr => trivial
  | blob mime =>
      refine ⟨List.cons_ne_nil _ _, ?_⟩
      intro a ha
      rw [List.mem_singleton.mp ha]
      obtain ⟨htype, hplain⟩ := Bool.and_eq_true_iff.mp h.1
      refine ⟨?_, h.2⟩
      rw [isAccept, htype, hplain, Bool.true_or, Bool.and_true, Bool.or_true]
  | repo collection action =>
      refine ⟨List.cons_ne_nil _ _, ?_, List.cons_ne_nil _ _⟩
      intro c hc
      have hcollection : isNsid collection = true := h
      rw [List.mem_singleton.mp hc, isNsidOrWildcard, hcollection, Bool.or_true]
  | rpc aud lxm =>
      refine ⟨List.cons_ne_nil _ _, ?_, ?_, ?_⟩
      · intro l hl
        rw [List.mem_singleton.mp hl, isNsidOrWildcard, h.2, Bool.or_true]
      · show isAud url aud = true
        rw [isAud, h.1, Bool.or_true]
      · exact fun hwild => ne_wildcard_of_isAtprotoDidRef h.1 hwild.1

/-- The MIME type in lower case matches a MIME type only if it is the same. -/
theorem matchesAccept_toLowercase (htables : tables.LowersLetters)
    (hmime : isMime mime = true) (hutf8 : utf8 mime = true) :
  matchesAccept (toLowercase tables mime) mime = true ↔ toLowercase tables mime = mime
  := by
  obtain ⟨hstar, hstar'⟩ := @not_isAsciiAlphabetic (char '*') (by decide)
  have hplain : char '*' ∉ toLowercase tables mime := by
    rw [(lowers_toLowercase htables hutf8).mem_iff hstar hstar']
    simpa using (Bool.and_eq_true_iff.mp hmime).2
  have hends : (ascii "/*").isSuffixOf (toLowercase tables mime) = false := by
    rw [← Bool.not_eq_true, List.isSuffixOf_iff_suffix]
    intro hsuffix
    exact hplain (hsuffix.subset (by decide))
  rw [matchesAccept_eq_true]
  constructor
  · rintro ⟨-, hany | ⟨hends', -⟩ | ⟨-, heq⟩⟩
    · exact absurd (hany ▸ (by decide : char '*' ∈ ascii "*/*")) hplain
    · rw [hends] at hends'
      cases hends'
    · exact heq
  · intro heq
    exact ⟨hmime, .inr (.inr ⟨hends, heq⟩)⟩

/-- The permission that is needed, with its pattern in lower case, allows the operation if it is
not the upload of a blob whose MIME type is not in lower case. -/
theorem Operation.needed_allows_iff (htables : tables.LowersLetters) (h : op.Valid url) :
  (op.needed.lowered tables).Allows op ↔ op.InLowercase tables
  := by
  cases op with
  | account attr action =>
      simp [needed, AtprotoScope.lowered, AtprotoScope.Allows, InLowercase,
        AccountPermission.matchesOp]
  | identity attr =>
      simp [needed, AtprotoScope.lowered, AtprotoScope.Allows, InLowercase,
        IdentityPermission.matchesOp]
  | blob mime =>
      have hmatches : (needed (.blob mime)).lowered tables
          = .blob ⟨[toLowercase tables mime]⟩ := rfl
      simp only [hmatches, AtprotoScope.Allows, BlobPermission.matchesOp, List.any_cons, List.any_nil,
        Bool.or_false]
      exact matchesAccept_toLowercase htables h.1 h.2
  | repo collection action =>
      simp [needed, AtprotoScope.lowered, AtprotoScope.Allows, InLowercase,
        RepoPermission.matchesOp]
  | rpc aud lxm =>
      simp [needed, AtprotoScope.lowered, AtprotoScope.Allows, InLowercase,
        RpcPermission.matchesOp]

/-- A value that is no transition scope allows the same whether these are honored or not. -/
theorem valueAllows_of_not_mem (h : v ∉ statics) :
  ValueAllows url transition v op ↔ ValueAllows url false v op
  := by
  simp only [statics, List.mem_cons, List.not_mem_nil, or_false, not_or] at h
  obtain ⟨-, hgeneric, hemail, hchat⟩ := h
  cases op <;> simp [ValueAllows, Ne.symm hgeneric, Ne.symm hemail, Ne.symm hchat]

/-- A value that is read as a permission is no transition scope. -/
theorem not_mem_statics {s : AtprotoScope}
    (hs : AtprotoScope.fromStr url v = some s) (hsame : s.Same (op.needed.lowered tables)) :
  v ∉ statics
  := by
  intro hv
  have hstatic : ∀ v ∈ statics, ∀ s, AtprotoScope.fromStr url v = some s →
      ¬s.Same (op.needed.lowered tables) := by
    simp only [statics, List.forall_mem_cons, List.not_mem_nil, IsEmpty.forall_iff, implies_true,
      and_true]
    refine ⟨?_, ?_, ?_, ?_⟩
    all_goals
      intro s hs
      cases hs
      cases op <;> exact id
  exact hstatic v hv s hs hsame

/-- Granting the value that was missing allows the operation, unless it is the upload of a blob
whose MIME type is not in lower case. -/
theorem assertOp_granted_iff (hreads : url.ReadsForms decode) (htables : tables.LowersLetters)
    (hvalid : op.Valid url) {values : List Bytes} {missing : ScopeMissingError}
    (h : (ScopePermissions.grantedBy url transition values).assertOp url tables op
      = .error missing) :
  (ScopePermissions.grantedBy url transition (values ++ [missing.scope])).assertOp url tables op
      = .ok ()
    ↔ op.InLowercase tables
  := by
  rw [assertOp_eq, check_eq_error] at h
  obtain ⟨hdenied, rfl⟩ := h
  obtain ⟨s, hs, hsame⟩ :=
    AtprotoScope.fromStr_toScope hreads htables (Operation.valid_needed hvalid)
  have hvalue : ValueAllows url transition (op.needed.toScope url tables) op
      ↔ op.InLowercase tables := by
    rw [valueAllows_of_not_mem (not_mem_statics hs hsame), valueAllows_iff,
      ← Operation.needed_allows_iff htables hvalid, ← hsame.allows_iff]
    constructor
    · rintro ⟨s', hs', hallows⟩
      cases hs.symm.trans hs'
      exact hallows
    · exact fun hallows => ⟨s, hs, hallows⟩
  rw [assertOp_eq, check_eq_ok, allows_iff, ← hvalue]
  constructor
  · rintro ⟨v, hv, hne, hallows⟩
    rcases List.mem_append.mp hv with hv | hv
    · have hallowed := (allows_iff url).mpr ⟨v, hv, hne, hallows⟩
      rw [hdenied] at hallowed
      cases hallowed
    · rw [List.mem_singleton.mp hv] at hallows
      exact hallows
  · intro hallows
    exact ⟨_, List.mem_append_right _ (List.mem_singleton_self _), (toScope_value _).1, hallows⟩

/-- A request with valid parameters that is not allowed is allowed once the scope that it names is
added to the granted ones, if and only if it is not the upload of a blob whose MIME type is not in
lower case. -/
theorem missing_scope_suffices_iff (hreads : url.ReadsForms decode)
    (htables : tables.LowersLetters) {op : Operation} (hvalid : op.Valid url) :
  (∀ transition scope missing,
    (permissionsOf url transition scope).assertOp url tables op = .error missing →
      ((permissionsOf url transition (scope ++ char ' ' :: missing.scope)).assertOp url tables op
          = .ok ()
        ↔ op.InLowercase tables))
    ∧ ∀ values missing,
      (ScopePermissions.fromScopes url values).assertOp url tables op = .error missing →
        ((ScopePermissions.fromScopes url (values ++ [missing.scope])).assertOp url tables op
            = .ok ()
          ↔ op.InLowercase tables)
  := by
  constructor
  · intro transition scope missing h
    have hspace : char ' ' ∉ missing.scope := by
      rw [assertOp_eq, check_eq_error] at h
      rw [h.2]
      exact (toScope_value op.needed).2
    rw [permissionsOf_eq] at h
    rw [permissionsOf_eq, List.splitOn_append_cons_self, List.splitOn_eq_singleton hspace]
    exact assertOp_granted_iff hreads htables hvalid h
  · intro values missing h
    have hfrom : ∀ values, ScopePermissions.fromScopes url values
        = ScopePermissions.grantedBy url false values := by
      intro values
      obtain ⟨scopes, heq, -⟩ := fromScopes_eq_gather url values
      rw [ScopePermissions.grantedBy, heq]
      rfl
    rw [hfrom] at h ⊢
    exact assertOp_granted_iff hreads htables hvalid h

namespace Sample

/-- A call that is not allowed names the scope that allows it. -/
theorem call_suffices :
  (permissionsOf library true (ascii "repo:* ")).assertOp library plainTables
      (.rpc (ascii "did:plc:aaaaaaaaaaaaaaaaaaaaaaaa#x") (ascii "chat.bsky.convo.getLog"))
    = .error ⟨ascii "rpc:chat.bsky.convo.getLog?aud=did:plc:aaaaaaaaaaaaaaaaaaaaaaaa%23x"⟩
  ∧ (permissionsOf library true (ascii "repo:* " ++ char ' ' ::
      ascii "rpc:chat.bsky.convo.getLog?aud=did:plc:aaaaaaaaaaaaaaaaaaaaaaaa%23x")).assertOp library
        plainTables
        (.rpc (ascii "did:plc:aaaaaaaaaaaaaaaaaaaaaaaa#x") (ascii "chat.bsky.convo.getLog"))
    = .ok ()
  := by
  have hmissing : (permissionsOf library true (ascii "repo:* ")).assertOp library plainTables
      (.rpc (ascii "did:plc:aaaaaaaaaaaaaaaaaaaaaaaa#x") (ascii "chat.bsky.convo.getLog"))
      = .error
        ⟨ascii "rpc:chat.bsky.convo.getLog?aud=did:plc:aaaaaaaaaaaaaaaaaaaaaaaa%23x"⟩ := by
    decide +kernel
  refine ⟨hmissing, ?_⟩
  exact ((missing_scope_suffices_iff library_readsForms plainTables_lowersLetters
    (show Operation.Valid library (.rpc _ _) from ⟨by decide +kernel, by decide +kernel⟩)).1
      true _ _ hmissing).mpr trivial

/-- The upload of a blob whose MIME type is in upper case stays forbidden when the scope that was
named is granted. -/
theorem upperCase_stays :
  isMime (ascii "IMAGE/PNG") = true
    ∧ (permissionsOf library false (ascii "atproto")).assertBlob library plainTables
        (ascii "IMAGE/PNG")
      = .error ⟨ascii "blob:image/png"⟩
    ∧ (permissionsOf library false (ascii "atproto blob:image/png")).assertBlob library plainTables
        (ascii "IMAGE/PNG")
      = .error ⟨ascii "blob:image/png"⟩
  := by decide +kernel

end Sample

end Shrike.OAuth
