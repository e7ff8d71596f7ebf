import Shrike.Data.Result
import Shrike.Net.Host

/-!
# Hosts that are local

How the host of a server is normalized, and whether it is one to which a key may be sent in the
clear. Brackets and colons are split off a host without regard to what they are around.
-/

namespace Shrike.Jetstream

open Bytes Net Except

/-! ### Hosts -/

/-- The text before the first place of a separator, and the text after it. -/
def splitAround (sep : Bytes) : Bytes → Option (Bytes × Bytes)
  | [] => none
  | b :: bs =>
      match stripPrefix sep (b :: bs) with
      | some rest => some ([], rest)
      | none => (splitAround sep bs).map fun parts => (b :: parts.1, parts.2)

/-- The schemes that a host can be given with. -/
def webSchemes : List Bytes := ["http", "https", "ws", "wss"].map ascii

/-- The characters of an authority. -/
def isAuthorityChar (b : UInt8) : Bool := isAsciiAlphanumeric b || (ascii ".-:[]").contains b

/-- The host without its scheme. -/
def stripScheme (host : Bytes) : Except String Bytes :=
  match splitAround (ascii "://") host with
  | none => .ok host
  | some (scheme, rest) =>
      if scheme.map toAsciiLowercase ∈ webSchemes then .ok rest
      else .error "host has an unsupported URL scheme"

/-- The host and the port that text names, in lower case. -/
def normalizeHost (raw : Bytes) : Except String Bytes := do
  let trimmed := trim raw
  refuse (trimmed = []) "host is empty"
  let afterScheme ← stripScheme trimmed
  let authority := afterScheme.takeWhile fun b => !(ascii "/?#").contains b
  refuse (authority = []) "host is empty"
  refuse (char '@' ∈ authority) "host must not contain credentials"
  refuse (authority.all isAuthorityChar = false) "host contains an invalid character"
  .ok (authority.map toAsciiLowercase)

/-- A host without its port and brackets. -/
def bareHost (host : Bytes) : Bytes :=
  match stripPrefix (ascii "[") host with
  | some rest =>
      match splitOnce (char ']') rest with
      | some (inner, _) => inner
      | none => rest
  | none =>
      match rsplitOnce (char ':') host with
      | some (h, port) => if port.all isAsciiDigit then h else host
      | none => host

/-- Whether a host without its port and brackets is local. -/
def isLoopbackName (bare : Bytes) : Bool :=
  let numericLoopback := (readIpv4 bare).any fun parts => parts.2 = [] && parts.1.isLoopback
  bare == ascii "localhost" || bare == ascii "::1" || numericLoopback

/-- Whether a host is local. -/
def isLoopbackHost (host : Bytes) : Bool := isLoopbackName ((bareHost host).map toAsciiLowercase)

/-! ### Names of this machine -/

/-- The hosts of URLs that are local. -/
inductive LoopbackName : Bytes → Prop where
  | localhost : LoopbackName (ascii "localhost")
  | v4 {text : Bytes} {addr : Ipv4Addr} (htext : Dotted text addr) (haddr : addr.a = 127) :
      LoopbackName text
  | v6 : LoopbackName (ascii "[::1]")

/-- A port after a host, or nothing. -/
def IsPort (port : Bytes) : Prop := port = [] ∨ ∃ digits, port = char ':' :: digits
  ∧ digits.all isAsciiDigit = true

/-- A local host, with a port or without. -/
def IsLoopback (host : Bytes) : Prop :=
  ∃ name port, LoopbackName name ∧ IsPort port ∧ host = name ++ port

/-- Of what names this machine only the address of version 6 is in brackets, which close and have
nothing after them but a port, and an address of version 6 before a port is in brackets. -/
structure IsTidy (host : Bytes) : Prop where
  name : ∀ rest, host = char '[' :: rest → rest.takeWhile (· ≠ char ']') ≠ ascii "localhost"
  v4 : ∀ rest addr, host = char '[' :: rest → Dotted (rest.takeWhile (· ≠ char ']')) addr →
    addr.a ≠ 127
  v6 : ∀ rest, host = char '[' :: rest → rest.takeWhile (· ≠ char ']') = ascii "::1" →
    ∃ port, IsPort port ∧ rest = ascii "::1]" ++ port
  bare : ∀ digits : Bytes, digits.all isAsciiDigit = true → host ≠ ascii "::1:" ++ digits

/-! ### Splitting -/

section Splitting

variable {host bare : Bytes}

theorem getD_splitOnce (sep : UInt8) (bs : Bytes) :
  ((splitOnce sep bs).map Prod.fst).getD bs = bs.takeWhile (· ≠ sep)
  := by
  induction bs with
  | nil => rfl
  | cons b bs ih =>
      rw [splitOnce, List.takeWhile_cons]
      by_cases hb : b = sep
      · simp [hb]
      · rw [if_neg hb, if_pos (decide_eq_true hb), ← ih]
        cases splitOnce sep bs with
        | none => rfl
        | some parts => rfl

/-- What is in brackets ends at the first bracket that closes. -/
theorem bareHost_bracketed (rest : Bytes) :
  bareHost (char '[' :: rest) = rest.takeWhile (· ≠ char ']')
  := by
  have hstrip := stripPrefix_append (ascii "[") rest
  rw [← getD_splitOnce, bareHost]
  rw [show ascii "[" ++ rest = char '[' :: rest by rfl] at hstrip
  rw [hstrip]
  dsimp only
  cases splitOnce (char ']') rest with
  | none => rfl
  | some parts => rfl

/-- Without brackets, nothing is split off a host but a port. -/
theorem bareHost_plain (h : host.head? ≠ some (char '[')) :
  ∃ port, IsPort port ∧ host = bareHost host ++ port
  := by
  have hstrip : stripPrefix (ascii "[") host = none := by
    rw [stripPrefix, if_neg]
    intro hprefix
    obtain ⟨rest, rfl⟩ := List.isPrefixOf_iff_prefix.mp hprefix
    exact h rfl
  rw [bareHost, hstrip]
  cases hsplit : rsplitOnce (char ':') host with
  | none => exact ⟨[], .inl rfl, (List.append_nil host).symm⟩
  | some parts =>
      dsimp only
      split
      · rename_i hdigits
        exact ⟨_, .inr ⟨parts.2, rfl, hdigits⟩, rsplitOnce_some hsplit⟩
      · exact ⟨[], .inl rfl, (List.append_nil host).symm⟩

/-- A local name is the usual one, or it is a local address. -/
theorem isLoopbackName_iff :
  isLoopbackName bare = true ↔
    bare = ascii "localhost" ∨ bare = ascii "::1" ∨ ∃ addr, Dotted bare addr ∧ addr.a = 127
  := by
  rw [isLoopbackName, Bool.or_eq_true, Bool.or_eq_true, beq_iff_eq, beq_iff_eq, or_assoc]
  apply or_congr_right (or_congr_right _)
  rw [Option.any_eq_true]
  constructor
  · rintro ⟨⟨addr, rest⟩, hread, haddr⟩
    rw [Bool.and_eq_true, decide_eq_true_eq] at haddr
    obtain ⟨hrest, hloopback⟩ := haddr
    obtain rfl : rest = [] := hrest
    exact ⟨addr, dotted_of_readIpv4 hread, beq_iff_eq.mp hloopback⟩
  · rintro ⟨addr, hdotted, haddr⟩
    exact ⟨(addr, []), hdotted.readIpv4, by simp [Ipv4Addr.isLoopback, haddr]⟩

variable {name rest text : Bytes}

/-- A host in dotted form starts with a digit. -/
theorem dotted_head {addr : Ipv4Addr} (h : Dotted text addr) :
  ∃ d rest, text = d :: rest ∧ isAsciiDigit d = true
  := by
  obtain ⟨a, b, c, d, hsplit, ha, -, -, -⟩ := h.parts
  have htext : [char '.'].intercalate (text.splitOn (char '.')) = text :=
    List.intercalate_splitOn (char '.')
  rw [hsplit] at htext
  obtain ⟨x, a, rfl⟩ := List.exists_cons_of_ne_nil ha.ne_nil
  exact ⟨x, _, htext.symm, isAsciiDigit_of_toDigit (ha.digits x List.mem_cons_self)⟩

theorem LoopbackName.head (h : LoopbackName name) :
  name = ascii "[::1]" ∨ ∃ b rest, name = b :: rest ∧ isAsciiAlphanumeric b = true
  := by
  cases h with
  | localhost => exact .inr ⟨_, _, rfl, by decide⟩
  | v4 htext haddr =>
      obtain ⟨d, rest, rfl, hd⟩ := dotted_head htext
      refine .inr ⟨d, rest, rfl, ?_⟩
      rw [isAsciiAlphanumeric, hd, Bool.or_true]
  | v6 => exact .inl rfl

/-- A local host in brackets is the address of version 6. -/
theorem IsLoopback.bracketed (h : IsLoopback (char '[' :: rest)) :
  ∃ port, IsPort port ∧ rest = ascii "::1]" ++ port
  := by
  obtain ⟨name, port, hname, hport, hhost⟩ := h
  rcases hname.head with rfl | ⟨b, bs, rfl, hb⟩
  · exact ⟨port, hport, (List.cons.inj hhost).2⟩
  · rw [List.cons_append] at hhost
    rw [← (List.cons.inj hhost).1] at hb
    exact absurd hb (by decide)

theorem IsLoopback.ne_colon :
  ¬IsLoopback (char ':' :: rest)
  := by
  rintro ⟨name, port, hname, hport, hhost⟩
  rcases hname.head with rfl | ⟨b, bs, rfl, hb⟩
  · exact absurd (List.cons.inj hhost).1 (by decide)
  · rw [List.cons_append] at hhost
    rw [← (List.cons.inj hhost).1] at hb
    exact absurd hb (by decide)

end Splitting

/-! ### Local hosts -/

section Hosts

variable {raw host : Bytes}

theorem normalizeHost_lower (h : normalizeHost raw = .ok host) :
  ∀ b ∈ host, toAsciiLowercase b = b
  := by
  obtain ⟨-, -, h⟩ := bind_eq_ok.mp h
  obtain ⟨after, -, h⟩ := bind_eq_ok.mp h
  obtain ⟨-, -, h⟩ := bind_eq_ok.mp h
  obtain ⟨-, -, h⟩ := bind_eq_ok.mp h
  obtain ⟨-, -, h⟩ := bind_eq_ok.mp h
  cases h
  intro b hb
  obtain ⟨c, -, rfl⟩ := List.mem_map.mp hb
  exact toAsciiLowercase_idem c

theorem map_lower {bs : Bytes} (h : ∀ b ∈ bs, toAsciiLowercase b = b) :
  bs.map toAsciiLowercase = bs
  := by
  rw [List.map_congr_left h, List.map_id']

/-- The check of local hosts admits only local hosts, but for brackets and colons that are not those
of an address. -/
theorem isLoopback_iff_isTidy (hraw : normalizeHost raw = .ok host) :
  (isLoopbackHost host = true → IsLoopback host) ↔ IsTidy host
  := by
  have hlower := normalizeHost_lower hraw
  constructor
  · intro h
    have hbracketed : ∀ rest, host = char '[' :: rest →
        isLoopbackName (rest.takeWhile (· ≠ char ']')) = true →
        ∃ port, IsPort port ∧ rest = ascii "::1]" ++ port := by
      rintro rest rfl hname
      apply IsLoopback.bracketed
      apply h
      rw [isLoopbackHost, bareHost_bracketed, map_lower]
      · exact hname
      · intro b hb
        exact hlower b (List.mem_cons_of_mem _ ((List.takeWhile_prefix _).subset hb))
    constructor
    · intro rest hhost hname
      obtain ⟨port, -, rfl⟩ := hbracketed rest hhost (isLoopbackName_iff.mpr (.inl hname))
      exact absurd (List.cons.inj hname).1 (by decide)
    · intro rest addr hhost hdotted haddr
      obtain ⟨port, -, rfl⟩ := hbracketed rest hhost
        (isLoopbackName_iff.mpr (.inr (.inr ⟨addr, hdotted, haddr⟩)))
      obtain ⟨d, digits, htext, hd⟩ := dotted_head hdotted
      rw [← (List.cons.inj htext).1] at hd
      exact absurd hd (by decide)
    · exact fun rest hhost hname =>
        hbracketed rest hhost (isLoopbackName_iff.mpr (.inr (.inl hname)))
    · rintro digits hdigits rfl
      apply IsLoopback.ne_colon
      apply h
      have hcolon : char ':' ∉ digits := by
        intro hmem
        have hdigit := List.all_eq_true.mp hdigits _ hmem
        revert hdigit
        decide
      have hsplit := rsplitOnce_append (ascii "::1") hcolon
      have hstrip : stripPrefix (ascii "[") (ascii "::1" ++ char ':' :: digits) = none := rfl
      have hbare : bareHost (ascii "::1" ++ char ':' :: digits) = ascii "::1" := by
        rw [bareHost, hstrip]
        dsimp only
        rw [hsplit]
        dsimp only
        rw [if_pos hdigits]
      show isLoopbackName ((bareHost (ascii "::1" ++ char ':' :: digits)).map toAsciiLowercase) = true
      rw [hbare]
      decide
  · intro htidy h
    by_cases hhead : host.head? = some (char '[')
    · cases host with
      | nil => cases hhead
      | cons b rest =>
          obtain rfl : b = char '[' := Option.some.inj hhead
          rw [isLoopbackHost, bareHost_bracketed, map_lower] at h
          · rcases isLoopbackName_iff.mp h with hlocal | hv6 | ⟨addr, hdotted, haddr⟩
            · exact absurd hlocal (htidy.name rest rfl)
            · obtain ⟨port, hport, rfl⟩ := htidy.v6 rest rfl hv6
              exact ⟨ascii "[::1]", port, .v6, hport, rfl⟩
            · exact absurd haddr (htidy.v4 rest addr rfl hdotted)
          · intro b hb
            exact hlower b (List.mem_cons_of_mem _ ((List.takeWhile_prefix _).subset hb))
    · obtain ⟨port, hport, hhost⟩ := bareHost_plain hhead
      rw [isLoopbackHost, map_lower] at h
      · rcases isLoopbackName_iff.mp h with hlocal | hv6 | ⟨addr, hdotted, haddr⟩
        · exact ⟨_, port, .localhost, hport, hlocal ▸ hhost⟩
        · rw [hv6] at hhost
          rcases hport with rfl | ⟨digits, rfl, hdigits⟩
          · rw [hhost] at hv6
            exact absurd hv6 (by decide)
          · exact absurd hhost (htidy.bare digits hdigits)
        · exact ⟨_, port, .v4 hdotted haddr, hport, hhost⟩
      · intro b hb
        apply hlower b
        rw [hhost]
        exact List.mem_append_left _ hb

theorem isTidy_localhost :
  normalizeHost (ascii "http://localhost:3000/") = .ok (ascii "localhost:3000")
    ∧ ((isLoopbackHost (ascii "localhost:3000") = true → IsLoopback (ascii "localhost:3000"))
      ↔ IsTidy (ascii "localhost:3000"))
  := ⟨by decide, isLoopback_iff_isTidy
    (show normalizeHost (ascii "http://localhost:3000/") = .ok (ascii "localhost:3000") by decide)⟩

/-- A name after brackets around a local address passes the check. -/
theorem foreign_host_passes :
  ¬∀ raw host, normalizeHost raw = .ok host → isLoopbackHost host = true → IsLoopback host
  := by
  intro h
  have hlocal := h (ascii "http://[127.0.0.1].evil.example/") (ascii "[127.0.0.1].evil.example")
    (by decide) (by decide)
  obtain ⟨port, -, hrest⟩ := IsLoopback.bracketed hlocal
  exact absurd (List.cons.inj hrest).1 (by decide)

end Hosts

end Shrike.Jetstream
