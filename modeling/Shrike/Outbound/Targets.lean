import Shrike.OAuth.Metadata

/-!
# No fetch of a local address

What is requested when local addresses are denied. A host that the URL library parsed is tested in
the form in which it is requested, and so is a handle, which is never an address. The identifier
of a DID of the web is tested as it is spelled, by a reader that knows fewer spellings of an
address than the URL library does.
-/

namespace Shrike.Outbound

open Bytes Net Syntax OAuth
open Except (forM_eq_ok)

/-- A fetch whose target is given by untrusted data. -/
inductive Fetch where
  | didWeb (did : Did)
  | handle (name : Handle)
  | record (did : Did) (endpoint : Bytes) (nsid : Nsid)
  | protectedResource (pdsUrl : Bytes)
  | authServer (issuer : Bytes)
  | endpoints (server : AuthServerMetadata)

variable (lib : Net.UrlLibrary)

/-- The URLs that are requested, those of endpoints at later moments. -/
def Fetch.requests (debug : Bytes → Bytes) (policy : AddressPolicy) : Fetch → List Url
  | .didWeb did =>
      match resolveDidWeb did policy with
      | .ok url => (lib.parse url).toOption.toList
      | .error _ => []
  | .handle name => (lib.parse (resolveHandleWellKnown name)).toOption.toList
  | .record did endpoint nsid => (getRecordUrl lib policy did endpoint nsid).toOption.toList
  | .protectedResource pdsUrl =>
      (metadataUrl lib policy (protectedResourceUrl pdsUrl)
        (ascii "protected resource metadata")).toOption.toList
  | .authServer issuer =>
      (metadataUrl lib policy (authServerUrl issuer) (ascii "auth server metadata")).toOption.toList
  | .endpoints server =>
      match checkAuthServerEndpoints lib debug server policy with
      | .ok () => server.endpoints.filterMap fun endpoint => (lib.parse endpoint.2).toOption
      | .error _ => []

/-- The identifier of a DID of the web that the URL library, but not the strict reader, takes for
an address, which is local. -/
def DisguisedAddress (identifier : Bytes) : Prop :=
  char ':' ∉ identifier ∧ parseIpAddr identifier = none ∧
    ∃ addr, parseHost lib.toHostLibrary identifier = some (.ipv4 addr) ∧ isLocalV4 addr = true

/-- A fetch of the document of a DID whose identifier is a local address in disguise. -/
def Fetch.Disguised : Fetch → Prop
  | .didWeb did => DisguisedAddress lib did.identifier
  | _ => False

/-- The URLs of a fetch have no local address for a host. -/
def Fetch.StaysOutside (debug : Bytes → Bytes) (fetch : Fetch) : Prop :=
  ∀ url ∈ fetch.requests lib debug .denyLocal, ∀ host, url.host = some host → IsOutside host

variable {lib}

/-! ### Hosts that are tested as they are requested -/

theorem mem_toList_toOption {ε α : Type} {x : Except ε α} {a : α} (h : a ∈ x.toOption.toList) :
  x = .ok a
  := by
  cases x with
  | error e => cases h
  | ok b => rw [List.mem_singleton.mp h]

theorem staysOutside_record (debug : Bytes → Bytes) (did : Did) (endpoint : Bytes) (nsid : Nsid) :
  (Fetch.record did endpoint nsid).StaysOutside lib debug
  := by
  intro url hurl host hhost
  exact isOutside_of_not_blockedHost (getRecordUrl_not_blocked (mem_toList_toOption hurl)) hhost

variable {bs url host path what : Bytes}

theorem staysOutside_metadata {parsed : Url}
    (h : parsed ∈ (metadataUrl lib .denyLocal url what).toOption.toList) {host : Host}
    (hhost : parsed.host = some host) :
  IsOutside host
  := isOutside_of_not_blockedHost (metadataUrl_not_blocked lib (mem_toList_toOption h)) hhost

theorem staysOutside_endpoints (debug : Bytes → Bytes) (server : AuthServerMetadata) :
  (Fetch.endpoints server).StaysOutside lib debug
  := by
  intro url hurl host hhost
  rw [Fetch.requests] at hurl
  split at hurl
  · rename_i hcheck
    obtain ⟨endpoint, hmem, hparse⟩ := List.mem_filterMap.mp hurl
    obtain ⟨url', hurl', hblocked⟩ := checkEndpoint_not_blocked lib (forM_eq_ok hcheck endpoint hmem)
    rw [hurl'] at hparse
    cases hparse
    exact isOutside_of_not_blockedHost hblocked hhost
  · cases hurl

/-! ### Plain hosts -/

/-- The host of the URL of a plain host. -/
theorem host_of_parse (hlib : lib.Standard) (hplain : IsPlain host) (hne : host ≠ []) {url : Url}
    (h : lib.parse (ascii "https://" ++ host ++ char '/' :: path) = .ok url) :
  ∃ parsed, parseHost lib.toHostLibrary host = some parsed ∧ url.host = some parsed
  := by
  have hparse := hlib.parse_https host path hplain hne
  rw [h] at hparse
  exact (Option.map_eq_some_iff.mp hparse.symm).imp fun parsed hparsed => ⟨hparsed.1, hparsed.2.symm⟩

theorem staysOutside_handle (hlib : lib.Standard) (debug : Bytes → Bytes) (name : Handle) :
  (Fetch.handle name).StaysOutside lib debug
  := by
  intro url hurl host hhost
  obtain ⟨parsed, hparsed, hurlHost⟩ := host_of_parse hlib (isPlain_handle name) (handle_ne_nil name)
    (mem_toList_toOption hurl)
  rw [hhost] at hurlHost
  cases hurlHost
  rcases parseHost_plain hlib.lowersAscii (isPlain_handle name) with hnone | hsome
  · rw [hnone] at hparsed
    cases hparsed
  · rw [endsInNumber_handle, if_neg Bool.false_ne_true, hparsed] at hsome
    rw [Option.some.inj hsome]
    trivial

/-! ### Identifiers of DIDs -/

/-- An address without a colon is an IPv4 address. -/
theorem readIpv4_of_parseIpAddr (h : char ':' ∉ bs) {addr : IpAddr}
    (haddr : parseIpAddr bs = some addr) :
  ∃ v4, addr = .v4 v4 ∧ readIpv4 bs = some (v4, [])
  := by
  rw [parseIpAddr] at haddr
  split at haddr
  · rename_i v4 rest hread
    split_ifs at haddr with hrest
    cases haddr
    exact ⟨v4, rfl, hrest ▸ hread⟩
  · rename_i hread
    rw [readIpv6_eq_none h hread] at haddr
    cases haddr

theorem hostIsBlockedLiteralIp_plain (h : IsPlain host) :
  hostIsBlockedLiteralIp host .denyLocal = (parseIpAddr host).any isLocalAddr
  := by
  have hopen : char '[' ∉ host := fun hmem => h.ne hmem (by decide) rfl
  have hclose : char ']' ∉ host := fun hmem => h.ne hmem (by decide) rfl
  rw [hostIsBlockedLiteralIp, trimStartMatches_of_not_mem hopen, trimEndMatches_of_not_mem hclose]
  cases parseIpAddr host with
  | none => rfl
  | some addr => rfl

/-- A plain host that is not blocked and not in disguise is not a local address. -/
theorem isOutside_plain (hlib : lib.Standard) (hplain : IsPlain host)
    (hcolon : char ':' ∉ host) (hblocked : hostIsBlockedLiteralIp host .denyLocal = false)
    (hdisguised : ¬DisguisedAddress lib host) {parsed : Host}
    (hparsed : parseHost lib.toHostLibrary host = some parsed) :
  IsOutside parsed
  := by
  rw [hostIsBlockedLiteralIp_plain hplain] at hblocked
  rcases parseHost_plain hlib.lowersAscii hplain with hnone | hsome
  · rw [hnone] at hparsed
    cases hparsed
  · rw [hparsed] at hsome
    cases hread : parseIpAddr host with
    | none =>
        cases parsed with
        | domain name => trivial
        | ipv4 addr =>
            rw [IsOutside, isLocalAddr, ← Bool.not_eq_true]
            intro hlocal
            exact hdisguised ⟨hcolon, hread, addr, hparsed, hlocal⟩
        | ipv6 addr =>
            exfalso
            split_ifs at hsome
            · obtain ⟨v4, -, hv4⟩ := Option.map_eq_some_iff.mp hsome.symm
              cases hv4
            · cases hsome
    | some addr =>
        obtain ⟨v4, rfl, hv4⟩ := readIpv4_of_parseIpAddr hcolon hread
        have hdotted := dotted_of_readIpv4 hv4
        obtain ⟨hends, hv4⟩ := hdotted.parseIpv4
        rw [hdotted.lowercase, hends, if_pos rfl, hv4, Option.map_some] at hsome
        rw [Option.some.inj hsome]
        rw [hread] at hblocked
        exact hblocked

theorem staysOutside_didWeb (hlib : lib.Standard) (debug : Bytes → Bytes) {did : Did}
    (h : ¬DisguisedAddress lib did.identifier) :
  (Fetch.didWeb did).StaysOutside lib debug
  := by
  intro url hurl host hhost
  rw [Fetch.requests, resolveDidWeb] at hurl
  split_ifs at hurl with hcolon hblocked
  · cases hurl
  · cases hurl
  · rw [List.contains_iff_mem] at hcolon
    rw [Bool.not_eq_true] at hblocked
    have hplain := isPlain_identifier hcolon
    obtain ⟨parsed, hparsed, hurlHost⟩ := host_of_parse hlib hplain (identifier_valid did).1
      (mem_toList_toOption hurl)
    rw [hhost] at hurlHost
    cases hurlHost
    exact isOutside_plain hlib hplain hcolon hblocked h hparsed

/-- A local address in disguise is requested. -/
theorem not_staysOutside_didWeb (hlib : lib.Standard) (debug : Bytes → Bytes) {did : Did}
    (h : DisguisedAddress lib did.identifier) :
  ¬(Fetch.didWeb did).StaysOutside lib debug
  := by
  obtain ⟨hcolon, hread, addr, hparsed, hlocal⟩ := h
  have hplain := isPlain_identifier hcolon
  have hblocked : hostIsBlockedLiteralIp did.identifier .denyLocal = false := by
    rw [hostIsBlockedLiteralIp_plain hplain, hread]
    rfl
  have hparse := hlib.parse_https did.identifier (ascii ".well-known/did.json") hplain
    (identifier_valid did).1
  rw [hparsed] at hparse
  obtain ⟨url, hurl, hhost⟩ := Option.map_eq_some_iff.mp hparse
  intro houtside
  have hlocal' : IsOutside (.ipv4 addr) := by
    apply houtside url _ _ hhost
    rw [Fetch.requests, resolveDidWeb, if_neg (by rwa [List.contains_iff_mem]), hblocked,
      if_neg Bool.false_ne_true]
    show url ∈ (lib.parse (ascii "https://" ++ did.identifier ++
      char '/' :: ascii ".well-known/did.json")).toOption.toList
    rw [hurl]
    exact List.mem_singleton_self url
  rw [IsOutside, isLocalAddr, hlocal] at hlocal'
  cases hlocal'

/-- When local addresses are denied, a fetch requests no URL whose host is a local address,
exactly if it is not the document of a DID whose identifier is a local address in a spelling that
the strict reader does not know. -/
theorem staysOutside_iff (hlib : lib.Standard) (debug : Bytes → Bytes) (fetch : Fetch) :
  fetch.StaysOutside lib debug ↔ ¬fetch.Disguised lib
  := by
  cases fetch with
  | didWeb did =>
      constructor
      · intro houtside hdisguised
        exact not_staysOutside_didWeb hlib debug hdisguised houtside
      · apply staysOutside_didWeb hlib debug
  | handle name => exact iff_of_true (staysOutside_handle hlib debug name) not_false
  | record did endpoint nsid =>
      exact iff_of_true (staysOutside_record debug did endpoint nsid) not_false
  | protectedResource pdsUrl =>
      exact iff_of_true (fun _ hurl _ => staysOutside_metadata hurl) not_false
  | authServer issuer => exact iff_of_true (fun _ hurl _ => staysOutside_metadata hurl) not_false
  | endpoints server => exact iff_of_true (staysOutside_endpoints debug server) not_false

/-! ### A local address in disguise -/

/-- A DID whose identifier is a short spelling of the address 127.0.0.1. -/
def shortLoopback : Did := ⟨ascii "did:web:127.1", by decide +kernel⟩

/-- The URL of its document. -/
def shortLoopbackUrl : Url :=
  ⟨ascii "https", [], none, some (.ipv4 ⟨127, 0, 0, 1⟩), ascii "/.well-known/did.json", none, none⟩

theorem shortLoopback_requested :
  (Fetch.didWeb shortLoopback).requests UrlLibrary.plain id .denyLocal = [shortLoopbackUrl] ∧
    ¬(Fetch.didWeb shortLoopback).StaysOutside UrlLibrary.plain id
  := by
  have hrequests : (Fetch.didWeb shortLoopback).requests UrlLibrary.plain id .denyLocal =
      [shortLoopbackUrl] := by decide +kernel
  constructor
  · exact hrequests
  · intro houtside
    have hlocal : isLocalAddr (.v4 ⟨127, 0, 0, 1⟩) = false := by
      apply houtside shortLoopbackUrl _ (.ipv4 ⟨127, 0, 0, 1⟩) rfl
      rw [hrequests]
      exact List.mem_singleton_self _
    revert hlocal
    decide

theorem plain_staysOutside_iff :
  UrlLibrary.plain.Standard ∧
    ((Fetch.didWeb shortLoopback).StaysOutside UrlLibrary.plain id ↔
      ¬(Fetch.didWeb shortLoopback).Disguised UrlLibrary.plain)
  := ⟨UrlLibrary.plain_standard, staysOutside_iff UrlLibrary.plain_standard id _⟩

end Shrike.Outbound
