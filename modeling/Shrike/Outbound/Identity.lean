import Shrike.Net.Host
import Shrike.Syntax.Identifier

/-!
# Fetches of identities and records

The URLs under which the documents of DIDs, the DIDs of handles, and records are fetched.
-/

/-!
## Address policies

Whether fetches whose target is given by untrusted data may reach local and private addresses.
-/

namespace Shrike.Outbound

open Bytes Net

/-- Which addresses may be reached. -/
inductive AddressPolicy where
  | denyLocal
  | allowLocal

/-- Whether an IPv4 address is local. -/
def isLocalV4 (v4 : Ipv4Addr) : Bool :=
  v4.isPrivate || v4.isLoopback || v4.isLinkLocal || v4.isUnspecified || v4.isBroadcast ||
    v4.isDocumentation || v4.a == 0 || (v4.a == 100 && 64 ≤ v4.b && v4.b ≤ 127)

/-- Whether an address is local. -/
def isLocalAddr : IpAddr → Bool
  | .v4 v4 => isLocalV4 v4
  | .v6 v6 =>
      match v6.toIpv4Mapped with
      | some mapped => isLocalV4 mapped
      | none =>
          let segment := v6.segments.headD 0
          v6.isLoopback || v6.isUnspecified || segment &&& 0xfe00 == 0xfc00 ||
            segment &&& 0xffc0 == 0xfe80

/-- Whether a host is the text of an address that is refused. -/
def hostIsBlockedLiteralIp (host : Bytes) (policy : AddressPolicy) : Bool :=
  match policy with
  | .allowLocal => false
  | .denyLocal =>
      let trimmed := trimEndMatches (char ']') (trimStartMatches (char '[') host)
      match parseIpAddr trimmed with
      | some ip => isLocalAddr ip
      | none => false

/-- Whether the host of a URL is the text of an address that is refused. -/
def isBlockedLiteralHost (url : Url) (policy : AddressPolicy) : Bool :=
  url.hostStr.any fun host => hostIsBlockedLiteralIp host policy

/-- A host that is no local address. -/
def IsOutside : Host → Prop
  | .domain _ => True
  | .ipv4 addr => isLocalAddr (.v4 addr) = false
  | .ipv6 addr => isLocalAddr (.v6 addr) = false

/-- A host whose text is not blocked is not a local address. -/
theorem isOutside_of_not_blocked {host : Host}
    (h : hostIsBlockedLiteralIp host.toText .denyLocal = false) :
  IsOutside host
  := by
  have hopen : ∀ addr : IpAddr, char '[' ∉ addr.toText := fun addr =>
    IpAddr.not_mem_toText (by decide) (by decide) (by decide)
  have hclose : ∀ addr : IpAddr, char ']' ∉ addr.toText := fun addr =>
    IpAddr.not_mem_toText (by decide) (by decide) (by decide)
  have htrim : ∀ addr : IpAddr, ∀ text : Bytes,
      trimEndMatches (char ']') (trimStartMatches (char '[') text) = addr.toText →
      hostIsBlockedLiteralIp text .denyLocal = false → isLocalAddr addr = false := by
    intro addr text htext hblocked
    rw [hostIsBlockedLiteralIp] at hblocked
    rw [htext, parseIpAddr_toText] at hblocked
    exact hblocked
  cases host with
  | domain name => trivial
  | ipv4 addr =>
      apply htrim (.v4 addr) addr.toText _ h
      have hstart := trimStartMatches_of_not_mem (hopen (.v4 addr))
      have hend := trimEndMatches_of_not_mem (hclose (.v4 addr))
      rw [IpAddr.toText] at hstart hend
      rw [hstart, hend, IpAddr.toText]
  | ipv6 addr =>
      apply htrim (.v6 addr) (Host.ipv6 addr).toText _ h
      have hstart : char '[' ∉ addr.toText ++ [char ']'] := by
        rw [List.mem_append, not_or]
        exact ⟨hopen (.v6 addr), by decide⟩
      rw [Host.toText, List.cons_append, trimStartMatches_cons_self,
        trimStartMatches_of_not_mem hstart, trimEndMatches_concat_self, trimEndMatches_of_not_mem]
      · rfl
      · exact hclose (.v6 addr)

theorem isOutside_of_not_blockedHost {url : Url} (h : isBlockedLiteralHost url .denyLocal = false)
    {host : Host} (hhost : url.host = some host) :
  IsOutside host
  := by
  rw [isBlockedLiteralHost, Url.hostStr, hhost] at h
  exact isOutside_of_not_blocked h

end Shrike.Outbound

/-! ## Fetches of identities and records -/

namespace Shrike.Outbound

open Bytes Net Syntax
open Except (bind_eq_ok ofOption ofOption_eq_ok refuse refuse_eq_ok)

/-- The errors of resolving identities. -/
inductive IdentityError where
  | notFound (reason : Bytes)
  | network (reason : Bytes)

/-- The URL of the document of a DID of the web. -/
def resolveDidWeb (did : Did) (policy : AddressPolicy) : Except IdentityError Bytes :=
  let identifier := did.identifier
  if identifier.contains (char ':') then
    .error (.notFound (ascii "path-based or ported did:web is not supported: " ++ did.raw))
  else if hostIsBlockedLiteralIp identifier policy then
    .error (.notFound (ascii "refusing to resolve did:web at local/private address " ++ identifier ++
      ascii " (use AddressPolicy::AllowLocal to permit): " ++ did.raw))
  else .ok (ascii "https://" ++ identifier ++ ascii "/.well-known/did.json")

/-- The URL of the DID of a handle. -/
def resolveHandleWellKnown (handle : Handle) : Bytes :=
  ascii "https://" ++ handle.raw ++ ascii "/.well-known/atproto-did"

/-- The collection of Lexicon schemas. -/
def lexiconSchemaNsid : Bytes := ascii "com.atproto.lexicon.schema"

/-- An endpoint that no record is fetched from. -/
structure InvalidPdsEndpoint where
  did : Did
  endpoint : Bytes
  reason : Bytes

/-- The URL of a Lexicon schema on a server. -/
def getRecordUrl (lib : UrlLibrary) (policy : AddressPolicy) (did : Did) (endpoint : Bytes)
    (nsid : Nsid) : Except InvalidPdsEndpoint Url := do
  let invalid (reason : Bytes) : InvalidPdsEndpoint := ⟨did, endpoint, reason⟩
  let url ← (lib.parse endpoint).mapError invalid
  refuse (url.scheme ≠ ascii "https" ∧ url.scheme ≠ ascii "http")
    (invalid (ascii "scheme must be http or https"))
  refuse (url.username ≠ [] ∨ url.password.isSome) (invalid (ascii "credentials are not allowed"))
  let host ← ofOption (invalid (ascii "missing host")) url.hostStr
  refuse (hostIsBlockedLiteralIp host policy)
    (invalid (ascii "local address refused by the address policy"))
  return { url with
    path := ascii "/xrpc/com.atproto.sync.getRecord"
    fragment := none
    query := some (lib.formSerialize [(ascii "did", did.raw),
      (ascii "collection", lexiconSchemaNsid), (ascii "rkey", nsid.raw)]) }

variable {given label endpoint : Bytes}

/-- The host of the URL of a record is not blocked. -/
theorem getRecordUrl_not_blocked {lib : UrlLibrary} {policy : AddressPolicy} {did : Did}
    {nsid : Nsid} {url : Url}
    (h : getRecordUrl lib policy did endpoint nsid = .ok url) :
  isBlockedLiteralHost url policy = false
  := by
  obtain ⟨parsed, hparse, h⟩ := bind_eq_ok.mp h
  obtain ⟨u, hscheme, h⟩ := bind_eq_ok.mp h
  obtain ⟨u', hcredentials, h⟩ := bind_eq_ok.mp h
  obtain ⟨host, hhost, h⟩ := bind_eq_ok.mp h
  obtain ⟨u'', hblocked, h⟩ := bind_eq_ok.mp h
  cases h
  have hstr : parsed.hostStr = some host := ofOption_eq_ok.mp hhost
  rw [refuse_eq_ok, Bool.not_eq_true] at hblocked
  show parsed.hostStr.any _ = false
  rw [hstr]
  exact hblocked

/-- The identifier of a DID is not empty and consists of the characters for it. -/
theorem identifier_valid (did : Did) :
  did.identifier ≠ [] ∧ ∀ b ∈ did.identifier, isDidIdentChar b = true
  := by
  have hvalid := did.valid
  rw [Did.validate] at hvalid
  split_ifs at hvalid
  split at hvalid
  · cases hvalid
  · rename_i rest hpre
    have hdrop : did.raw.drop 4 = rest := by
      rw [stripPrefix_some hpre]
      rfl
    split at hvalid
    · cases hvalid
    · rename_i method ident hsplit
      split_ifs at hvalid with _ _ hident hall
      rw [Did.identifier, hdrop, hsplit, Option.map_some, Option.getD_some]
      rw [Bool.not_eq_true, Bool.not_eq_false'] at hall
      exact ⟨hident, List.all_eq_true.mp hall⟩

/-- The identifier of a DID without a colon is a plain host. -/
theorem isPlain_identifier {did : Did} (h : char ':' ∉ did.identifier) :
  IsPlain did.identifier
  := by
  intro b hb
  have hchar := (identifier_valid did).2 b hb
  have hne : (b == char ':') = false := by
    rw [beq_eq_false_iff_ne]
    rintro rfl
    exact h hb
  rw [isDidIdentChar, hne, Bool.or_false] at hchar
  simp only [Bool.or_eq_true] at hchar ⊢
  tauto

/-! ### Handles -/

variable {b : UInt8}

theorem mem_of_validateDomainLabel (h : Nsid.validateDomainLabel label = .ok ()) (hb : b ∈ label) :
  Nsid.isAlphanumericOrHyphen b = true
  := by
  have halnum : ∀ {c : UInt8}, isAsciiAlphanumeric c = true →
      Nsid.isAlphanumericOrHyphen c = true := by
    intro c hc
    rw [Nsid.isAlphanumericOrHyphen, hc, Bool.true_or]
  cases label with
  | nil => cases hb
  | cons first rest =>
      rw [Nsid.validateDomainLabel] at h
      split_ifs at h with _ hfirst hlast hmiddle
      rw [Bool.not_eq_true, Bool.not_eq_false'] at hfirst hlast hmiddle
      rcases List.mem_cons.mp hb with rfl | hb
      · exact halnum hfirst
      · have hrest : rest ≠ [] := List.ne_nil_of_mem hb
        rw [← List.dropLast_append_getLast hrest, List.mem_append] at hb
        rcases hb with hb | hb
        · exact List.all_eq_true.mp hmiddle b hb
        · have hlastD : (first :: rest).getLastD first = b := by
            rw [List.getLastD_eq_getLast?, List.getLast?_cons_of_ne_nil hrest,
              List.getLast?_eq_getLast_of_ne_nil hrest, List.mem_singleton.mp hb]
            rfl
          rw [hlastD] at hlast
          exact halnum hlast

theorem mem_of_validateLabels {labels : List Bytes}
    (h : Handle.validateLabels labels = .ok ()) (hlabel : label ∈ labels) (hb : b ∈ label) :
  Nsid.isAlphanumericOrHyphen b = true
  := by
  induction labels with
  | nil => cases hlabel
  | cons first labels ih =>
      rw [Handle.validateLabels] at h
      split_ifs at h
      obtain ⟨⟨⟩, hfirst, h⟩ := bind_eq_ok.mp h
      rcases List.mem_cons.mp hlabel with rfl | hlabel
      · exact mem_of_validateDomainLabel hfirst hb
      · exact ih h hlabel

/-- What a handle is made of. -/
structure HandleParts (given : Bytes) : Prop where
  chars : ∀ b ∈ given, b = char '.' ∨ Nsid.isAlphanumericOrHyphen b = true
  last : ∃ b bs, (given.splitOn (char '.')).getLast? = some (b :: bs) ∧ isAsciiAlphabetic b = true
  ne_nil : given ≠ []

theorem handleParts_of_validate (h : Handle.validate given = .ok ()) :
  HandleParts given
  := by
  rw [Handle.validate] at h
  split_ifs at h with hempty hlong
  obtain ⟨⟨⟩, hlabels, h⟩ := bind_eq_ok.mp h
  split_ifs at h with hlength hletter
  constructor
  · intro b hb
    apply (mem_splitOn hb).imp_right
    rintro ⟨part, hpart, hb⟩
    exact mem_of_validateLabels hlabels hpart hb
  · rw [Bool.not_eq_true, Bool.not_eq_false', List.getLastD_eq_getLast?] at hletter
    cases hlast : (given.splitOn (char '.')).getLast? with
    | none =>
        rw [hlast] at hletter
        cases hletter
    | some last =>
        rw [hlast, Option.getD_some] at hletter
        cases last with
        | nil => cases hletter
        | cons b bs => exact ⟨b, bs, rfl, hletter⟩
  · exact hempty

theorem isAsciiLowercase_toAsciiLowercase (h : isAsciiAlphabetic b = true) :
  isAsciiLowercase (toAsciiLowercase b) = true
  := by
  rw [isAsciiAlphabetic, Bool.or_eq_true] at h
  rw [toAsciiLowercase]
  split_ifs with hupper
  · rw [isAsciiUppercase, Bool.and_eq_true, decide_eq_true_eq, decide_eq_true_eq] at hupper
    rw [UInt8.le_iff_toNat_le, UInt8.le_iff_toNat_le] at hupper
    rw [isAsciiLowercase, Bool.and_eq_true, decide_eq_true_eq, decide_eq_true_eq]
    rw [UInt8.le_iff_toNat_le, UInt8.le_iff_toNat_le, UInt8.toNat_add]
    simp only [UInt8.reduceToNat] at hupper ⊢
    omega
  · exact h.resolve_left hupper

theorem isAsciiAlphabetic_toAsciiLowercase (h : isAsciiAlphabetic b = true) :
  isAsciiAlphabetic (toAsciiLowercase b) = true
  := by
  rw [isAsciiAlphabetic, isAsciiLowercase_toAsciiLowercase h, Bool.or_true]

theorem toAsciiLowercase_of_not_alphabetic (h : isAsciiAlphabetic b = false) :
  toAsciiLowercase b = b
  := by
  rw [isAsciiAlphabetic, Bool.or_eq_false_iff] at h
  rw [toAsciiLowercase, h.1, if_neg Bool.false_ne_true]

theorem toAsciiLowercase_eq_dot (b : UInt8) :
  toAsciiLowercase b = char '.' ↔ b = char '.'
  := by
  cases halpha : isAsciiAlphabetic b with
  | false => rw [toAsciiLowercase_of_not_alphabetic halpha]
  | true =>
      have hlower := isAsciiAlphabetic_toAsciiLowercase halpha
      constructor
      · intro heq
        rw [heq] at hlower
        cases hlower
      · rintro rfl
        cases halpha

/-- A handle is a plain host. -/
theorem isPlain_handle (handle : Handle) :
  IsPlain handle.raw
  := by
  obtain ⟨given, hvalid, hraw⟩ := handle.valid
  intro b hb
  rw [hraw] at hb
  obtain ⟨c, hc, rfl⟩ := List.mem_map.mp hb
  cases halpha : isAsciiAlphabetic c with
  | true =>
      rw [isAsciiAlphanumeric, isAsciiAlphabetic_toAsciiLowercase halpha]
      rfl
  | false =>
      rw [toAsciiLowercase_of_not_alphabetic halpha]
      rcases (handleParts_of_validate hvalid).chars c hc with rfl | hchar
      · rfl
      · rw [Nsid.isAlphanumericOrHyphen, Bool.or_eq_true] at hchar
        rcases hchar with hchar | hchar
        · rw [hchar]
          rfl
        · rw [hchar, Bool.or_true, Bool.true_or]

theorem handle_ne_nil (handle : Handle) :
  handle.raw ≠ []
  := by
  obtain ⟨given, hvalid, hraw⟩ := handle.valid
  rw [hraw, ne_eq, List.map_eq_nil_iff]
  exact (handleParts_of_validate hvalid).ne_nil

/-- A handle in lower case does not end in a number. -/
theorem endsInNumber_handle (handle : Handle) :
  endsInNumber (handle.raw.map toAsciiLowercase) = false
  := by
  obtain ⟨given, hvalid, hraw⟩ := handle.valid
  obtain ⟨b, bs, hlast, halpha⟩ := (handleParts_of_validate hvalid).last
  apply @endsInNumber_of_letter (toAsciiLowercase (toAsciiLowercase b)) _
    ((bs.map toAsciiLowercase).map toAsciiLowercase)
  · rw [hraw, splitOn_map toAsciiLowercase_eq_dot, splitOn_map toAsciiLowercase_eq_dot,
      List.getLast?_map, List.getLast?_map, hlast]
    rfl
  · exact isAsciiAlphabetic_toAsciiLowercase (isAsciiAlphabetic_toAsciiLowercase halpha)

end Shrike.Outbound
