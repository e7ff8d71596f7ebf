import Shrike.Net.Address

/-!
# Hosts of URLs

The host parser of the URL Standard for the schemes of the web. A host that ends in a number is an
IPv4 address, which may be spelled in many ways: with one to four parts, each of them decimal,
octal or hexadecimal, and a dot at the end.
-/

namespace Net

open Bytes

/-- The host of a URL. -/
inductive Host where
  | domain (name : Bytes)
  | ipv4 (addr : Ipv4Addr)
  | ipv6 (addr : Ipv6Addr)
  deriving DecidableEq

/-- A host in text. -/
def Host.toText : Host → Bytes
  | .domain name => name
  | .ipv4 addr => addr.toText
  | .ipv6 addr => char '[' :: addr.toText ++ [char ']']

/-- What host parsing needs of Unicode, and the reader of IPv6 addresses. -/
structure HostLibrary where
  domainToAscii : Bytes → Option Bytes
  parseIpv6 : Bytes → Option Ipv6Addr

/-- Domain names of ASCII characters are put into lower case, if they are accepted. -/
def HostLibrary.LowersAscii (lib : HostLibrary) : Prop :=
  ∀ bs, IsAscii bs → lib.domainToAscii bs = none ∨
    lib.domainToAscii bs = some (bs.map toAsciiLowercase)

/-- Replace every percent sign with two hexadecimal digits by the byte that they spell. -/
def percentDecode : Bytes → Bytes
  | [] => []
  | b :: bs =>
      if b = char '%' then
        match bs with
        | a :: c :: rest =>
            match hexPair a c with
            | some byte => byte :: percentDecode rest
            | none => b :: percentDecode (a :: c :: rest)
        | rest => b :: percentDecode rest
      else b :: percentDecode bs

/-- Read a part of an IPv4 address. -/
def parseIpv4Number (input : Bytes) : Option ℕ :=
  if input = [] then none
  else
    let (radix, digits) :=
      if (ascii "0x").isPrefixOf input || (ascii "0X").isPrefixOf input then (16, input.drop 2)
      else if 2 ≤ input.length ∧ input.head? = some (char '0') then (8, input.drop 1)
      else (10, input)
    if digits = [] then some 0
    else if digits.all fun b => (toDigit radix b).isSome then some (ofText radix digits)
    else none

/-- The parts of a host, without an empty one at its end. -/
def hostParts (input : Bytes) : List Bytes :=
  let parts := input.splitOn (char '.')
  if parts.getLast? = some [] ∧ 1 < parts.length then parts.dropLast else parts

/-- Whether a host ends in a number. -/
def endsInNumber (input : Bytes) : Bool :=
  let last := (hostParts input).getLastD []
  if last ≠ [] ∧ last.all isAsciiDigit then true else (parseIpv4Number last).isSome

/-- The address that a number of 32 bits is. -/
def Ipv4Addr.ofNat (n : ℕ) : Ipv4Addr where
  a := UInt8.ofNat (n / 2 ^ 24)
  b := UInt8.ofNat (n / 2 ^ 16)
  c := UInt8.ofNat (n / 2 ^ 8)
  d := UInt8.ofNat n

/-- The value of the parts of an IPv4 address but the last one. -/
def highParts : ℕ → List ℕ → ℕ
  | _, [] => 0
  | k, n :: numbers => n * 256 ^ k + highParts (k - 1) numbers

/-- Read an IPv4 address in any spelling. -/
def parseIpv4 (input : Bytes) : Option Ipv4Addr := do
  let parts := hostParts input
  if 4 < parts.length then none
  else
    let numbers ← parts.mapM parseIpv4Number
    let last := numbers.getLastD 0
    if numbers.dropLast.any (255 < ·) then none
    else if 256 ^ (5 - numbers.length) ≤ last then none
    else some (.ofNat (last + highParts 3 numbers.dropLast))

/-- The characters that no domain name contains. -/
def isForbiddenDomainByte (b : UInt8) : Bool :=
  b ≤ 0x20 || b == 0x7f || (ascii "#/:<>?@[\\]^|%").contains b

/-- Parse a host. -/
def parseHost (lib : HostLibrary) (input : Bytes) : Option Host :=
  if input.head? = some (char '[') then
    if input.getLast? = some (char ']') then
      (lib.parseIpv6 input.tail.dropLast).map .ipv6
    else none
  else do
    let name ← lib.domainToAscii (percentDecode input)
    if name = [] ∨ name.any isForbiddenDomainByte then none
    else if endsInNumber name then (parseIpv4 name).map .ipv4
    else some (.domain name)

/-- A host of letters, digits, dots, hyphens and underscores. -/
def IsPlain (host : Bytes) : Prop :=
  ∀ b ∈ host, (isAsciiAlphanumeric b || b == char '.' || b == char '-' || b == char '_') = true

variable {addr : Ipv4Addr} {host text : Bytes}

theorem IsPlain.isAscii (h : IsPlain host) :
  IsAscii host
  := by
  intro b hb
  have hplain := h b hb
  simp only [Bool.or_eq_true, beq_iff_eq] at hplain
  rcases hplain with ((halnum | rfl) | rfl) | rfl
  · exact lt_of_isAsciiAlphanumeric halnum
  · decide
  · decide
  · decide

theorem IsPlain.ne (h : IsPlain host) {b c : UInt8} (hb : b ∈ host)
    (hc : (isAsciiAlphanumeric c || c == char '.' || c == char '-' || c == char '_') = false) :
  b ≠ c
  := by
  rintro rfl
  have hplain := h b hb
  rw [hc] at hplain
  cases hplain

variable {bs rest : Bytes} {b octet : UInt8}

theorem percentDecode_of_not_mem (h : char '%' ∉ bs) :
  percentDecode bs = bs
  := by
  induction bs with
  | nil => rfl
  | cons b bs ih =>
      obtain ⟨hb, hbs⟩ := List.ne_and_not_mem_of_not_mem_cons h
      rw [percentDecode.eq_def]
      dsimp only
      rw [if_neg hb.symm, ih hbs]

/-- A plain host is read as a domain name, or as an IPv4 address if it ends in a number. -/
theorem parseHost_plain {lib : HostLibrary} (hlib : lib.LowersAscii) (h : IsPlain host) :
  parseHost lib host = none ∨
    parseHost lib host =
      if endsInNumber (host.map toAsciiLowercase) then
        (parseIpv4 (host.map toAsciiLowercase)).map .ipv4
      else some (.domain (host.map toAsciiLowercase))
  := by
  have hbracket : host.head? ≠ some (char '[') := by
    intro hhead
    exact h.ne (List.mem_of_mem_head? hhead) (by decide) rfl
  have hpercent : char '%' ∉ host := fun hmem => h.ne hmem (by decide) rfl
  rw [parseHost, if_neg hbracket, percentDecode_of_not_mem hpercent]
  rcases hlib host h.isAscii with hnone | hsome
  · rw [hnone]
    exact .inl rfl
  · rw [hsome]
    exact ite_eq_or_eq _ _ _

/-! ### The strict spelling -/

/-- A part of an address as the strict reader accepts it. -/
structure StrictPart (text : Bytes) (octet : UInt8) : Prop where
  ne_nil : text ≠ []
  digits : ∀ b ∈ text, (toDigit 10 b).isSome = true
  canonical : text.head? = some (char '0') → text.length ≤ 1
  length_le : text.length ≤ 3
  value : octet.toNat = ofText 10 text

theorem isAsciiDigit_of_toDigit (h : (toDigit 10 b).isSome = true) :
  isAsciiDigit b = true
  := by
  by_contra hdigit
  rw [toDigit, hexDigit, if_neg hdigit] at h
  split_ifs at h with hupper hlower
  · rw [Bool.and_eq_true, decide_eq_true_eq, decide_eq_true_eq, UInt8.le_iff_toNat_le] at hupper
    have h65 : (65 : UInt8).toNat = 65 := rfl
    rw [Option.filter_some, if_neg (by simp; omega)] at h
    cases h
  · rw [Bool.and_eq_true, decide_eq_true_eq, decide_eq_true_eq, UInt8.le_iff_toNat_le] at hlower
    have h97 : (97 : UInt8).toNat = 97 := rfl
    rw [Option.filter_some, if_neg (by simp; omega)] at h
    cases h
  · cases h

theorem toAsciiLowercase_of_isAsciiDigit (h : isAsciiDigit b = true) :
  toAsciiLowercase b = b
  := by
  rw [isAsciiDigit, Bool.and_eq_true, decide_eq_true_eq, decide_eq_true_eq] at h
  rw [toAsciiLowercase, if_neg]
  rw [isAsciiUppercase, Bool.and_eq_true, decide_eq_true_eq, decide_eq_true_eq, not_and]
  rw [UInt8.le_iff_toNat_le, UInt8.le_iff_toNat_le] at h ⊢
  intro hle
  have h57 : (57 : UInt8).toNat = 57 := rfl
  have h65 : (65 : UInt8).toNat = 65 := rfl
  omega

theorem readOctet_some (h : readOctet bs = some (octet, rest)) :
  ∃ text, bs = text ++ rest ∧ StrictPart text octet
  := by
  obtain ⟨⟨n, rest'⟩, hn, heq⟩ := Option.map_eq_some_iff.mp h
  obtain ⟨rfl, rfl⟩ := Prod.mk.inj heq
  obtain ⟨text, hbs, hne, hlength, hdigits, hcanonical, rfl, hlt⟩ := readNumber_some hn
  refine ⟨text, hbs, hne, hdigits, hcanonical rfl, hlength, ?_⟩
  rw [UInt8.toNat_ofNat']
  omega

/-- A part is read up to the first character that is no digit. -/
theorem StrictPart.readOctet {text rest : Bytes} (h : StrictPart text octet)
    (hrest : ∀ b ∈ rest.head?, (toDigit 10 b).isSome = false) :
  Net.readOctet (text ++ rest) = some (octet, rest)
  := by
  have hdigits : digitsOf 10 (text ++ rest) = text := by
    rw [digitsOf, List.takeWhile_append_of_pos h.digits]
    cases rest with
    | nil => exact List.append_nil text
    | cons b rest => rw [List.takeWhile_cons_of_neg (by simp [hrest b rfl]), List.append_nil]
  have hafter := digitsOf_append_afterDigits 10 (text ++ rest)
  rw [hdigits, List.append_cancel_left_eq] at hafter
  have hlt := octet.toNat_lt
  have hcanonical : ¬(false = false ∧ text.head? = some (char '0') ∧ 1 < text.length) := by
    rintro ⟨-, hzero, hlt⟩
    exact absurd hlt (Nat.not_lt.mpr (h.canonical hzero))
  have hsize : ¬(text = [] ∨ 3 < text.length) := by
    rw [not_or]
    exact ⟨h.ne_nil, Nat.not_lt.mpr h.length_le⟩
  rw [Net.readOctet, readNumber, hdigits, hafter, ← h.value, if_neg hsize, if_neg hcanonical,
    if_neg (Nat.not_le.mpr hlt), Option.map_some, UInt8.ofNat_toNat]

theorem readNextOctet_some (h : readNextOctet bs = some (octet, rest)) :
  ∃ text, bs = char '.' :: (text ++ rest) ∧ StrictPart text octet
  := by
  obtain ⟨bs', hdot, hoctet⟩ := Option.bind_eq_some_iff.mp h
  obtain ⟨text, rfl, htext⟩ := readOctet_some hoctet
  exact ⟨text, readChar_some hdot, htext⟩

theorem StrictPart.not_mem (h : StrictPart text octet) :
  char '.' ∉ text
  := by
  intro hmem
  have hdigit := h.digits _ hmem
  revert hdigit
  decide

theorem StrictPart.parseIpv4Number (h : StrictPart text octet) :
  parseIpv4Number text = some octet.toNat
  := by
  have hhex : ((ascii "0x").isPrefixOf text || (ascii "0X").isPrefixOf text) = false := by
    rw [Bool.eq_false_iff]
    intro hpre
    have hx : char 'x' ∈ text ∨ char 'X' ∈ text := by
      rcases (Bool.or_eq_true _ _).mp hpre with hp | hp
      · exact .inl ((List.isPrefixOf_iff_prefix.mp hp).subset (by decide))
      · exact .inr ((List.isPrefixOf_iff_prefix.mp hp).subset (by decide))
    rcases hx with hx | hx
    · have hdigit := h.digits _ hx
      revert hdigit
      decide
    · have hdigit := h.digits _ hx
      revert hdigit
      decide
  have hoctal : ¬(2 ≤ text.length ∧ text.head? = some (char '0')) := by
    rintro ⟨hlength, hhead⟩
    have := h.canonical hhead
    omega
  rw [Net.parseIpv4Number, if_neg h.ne_nil, hhex, if_neg Bool.false_ne_true, if_neg hoctal]
  dsimp only
  rw [if_neg h.ne_nil, if_pos (List.all_eq_true.mpr h.digits), h.value]

theorem StrictPart.all_isAsciiDigit (h : StrictPart text octet) :
  text.all isAsciiDigit = true
  := by
  rw [List.all_eq_true]
  intro b hb
  exact isAsciiDigit_of_toDigit (h.digits b hb)

theorem StrictPart.toAsciiLowercase (h : StrictPart text octet) :
  text.map toAsciiLowercase = text
  := by
  conv_rhs => rw [← List.map_id text]
  apply List.map_congr_left
  intro b hb
  exact toAsciiLowercase_of_isAsciiDigit (isAsciiDigit_of_toDigit (h.digits b hb))

/-- What the strict reader accepts. -/
structure Dotted (bs : Bytes) (addr : Ipv4Addr) : Prop where
  parts : ∃ a b c d, bs.splitOn (char '.') = [a, b, c, d] ∧ StrictPart a addr.a ∧
    StrictPart b addr.b ∧ StrictPart c addr.c ∧ StrictPart d addr.d
  lowercase : bs.map toAsciiLowercase = bs

theorem dotted_of_readIpv4 (h : readIpv4 bs = some (addr, [])) :
  Dotted bs addr
  := by
  obtain ⟨⟨oa, bs₁⟩, ha, h⟩ := Option.bind_eq_some_iff.mp h
  obtain ⟨⟨ob, bs₂⟩, hb, h⟩ := Option.bind_eq_some_iff.mp h
  obtain ⟨⟨oc, bs₃⟩, hc, h⟩ := Option.bind_eq_some_iff.mp h
  obtain ⟨⟨od, bs₄⟩, hd, h⟩ := Option.bind_eq_some_iff.mp h
  obtain ⟨rfl, rfl⟩ := Prod.mk.inj (Option.some.inj h)
  obtain ⟨a, rfl, hpartA⟩ := readOctet_some ha
  obtain ⟨b, rfl, hpartB⟩ := readNextOctet_some hb
  obtain ⟨c, rfl, hpartC⟩ := readNextOctet_some hc
  obtain ⟨d, rfl, hpartD⟩ := readNextOctet_some hd
  have hdot : Bytes.toAsciiLowercase (char '.') = char '.' := by decide
  constructor
  · use a, b, c, d
    refine ⟨?_, hpartA, hpartB, hpartC, hpartD⟩
    rw [List.splitOn_append_cons_self_of_not_mem hpartA.not_mem,
      List.splitOn_append_cons_self_of_not_mem hpartB.not_mem,
      List.splitOn_append_cons_self_of_not_mem hpartC.not_mem, List.append_nil,
      List.splitOn_eq_singleton hpartD.not_mem]
  · simp only [List.map_append, List.map_cons, List.map_nil, hdot, hpartA.toAsciiLowercase,
      hpartB.toAsciiLowercase, hpartC.toAsciiLowercase, hpartD.toAsciiLowercase]

theorem StrictPart.readNextOctet {text rest : Bytes} (h : StrictPart text octet)
    (hrest : ∀ b ∈ rest.head?, (toDigit 10 b).isSome = false) :
  Net.readNextOctet (char '.' :: (text ++ rest)) = some (octet, rest)
  := by
  rw [Net.readNextOctet, readChar, if_pos rfl]
  exact h.readOctet hrest

/-- The strict reader reads what is dotted. -/
theorem Dotted.readIpv4 (h : Dotted bs addr) :
  Net.readIpv4 bs = some (addr, [])
  := by
  obtain ⟨a, b, c, d, hsplit, ha, hb, hc, hd⟩ := h.parts
  have hbs : [char '.'].intercalate (bs.splitOn (char '.')) = bs :=
    List.intercalate_splitOn (char '.')
  have hdot : ∀ {rest : Bytes}, ∀ x ∈ (char '.' :: rest).head?, (toDigit 10 x).isSome = false := by
    intro rest x hx
    obtain rfl : char '.' = x := Option.some.inj hx
    decide
  have hend := @StrictPart.readNextOctet _ d [] hd nofun
  rw [hsplit] at hbs
  rw [← hbs]
  simp only [List.intercalate_cons_cons, List.intercalate_singleton, List.append_assoc,
    List.singleton_append]
  rw [List.append_nil] at hend
  simp only [Net.readIpv4, Option.bind_eq_bind, ha.readOctet hdot, hb.readNextOctet hdot,
    hc.readNextOctet hdot, hend, Option.bind_some]

theorem ofNat_octets (addr : Ipv4Addr) :
  Ipv4Addr.ofNat (addr.d.toNat + highParts 3 [addr.a.toNat, addr.b.toNat, addr.c.toNat]) = addr
  := by
  obtain ⟨a, b, c, d⟩ := addr
  have hoctet : ∀ {n : ℕ} {octet : UInt8}, n % 256 = octet.toNat → UInt8.ofNat n = octet := by
    intro n octet h
    rw [← UInt8.toNat_inj, UInt8.toNat_ofNat', h]
  have ha := a.toNat_lt
  have hb := b.toNat_lt
  have hc := c.toNat_lt
  have hd := d.toNat_lt
  simp only [Ipv4Addr.ofNat, highParts, Ipv4Addr.mk.injEq]
  refine ⟨hoctet ?_, hoctet ?_, hoctet ?_, hoctet ?_⟩
  · omega
  · omega
  · omega
  · omega

/-- What the strict reader accepts, the host parser reads as the same address. -/
theorem Dotted.parseIpv4 (h : Dotted bs addr) :
  endsInNumber bs = true ∧ parseIpv4 bs = some addr
  := by
  obtain ⟨a, b, c, d, hsplit, ha, hb, hc, hd⟩ := h.parts
  have hparts : hostParts bs = [a, b, c, d] := by
    rw [hostParts, hsplit, if_neg]
    rintro ⟨hlast, -⟩
    exact hd.ne_nil (Option.some.inj hlast)
  constructor
  · rw [endsInNumber, hparts]
    exact if_pos ⟨hd.ne_nil, hd.all_isAsciiDigit⟩
  · have hnumbers : [a, b, c, d].mapM Net.parseIpv4Number =
        some [addr.a.toNat, addr.b.toNat, addr.c.toNat, addr.d.toNat] := by
      simp [List.mapM_cons, ha.parseIpv4Number, hb.parseIpv4Number, hc.parseIpv4Number,
        hd.parseIpv4Number]
    have hlow : [addr.a.toNat, addr.b.toNat, addr.c.toNat].any (255 < ·) = false := by
      have ha := addr.a.toNat_lt
      have hb := addr.b.toNat_lt
      have hc := addr.c.toNat_lt
      simp
      omega
    have hd := addr.d.toNat_lt
    rw [Net.parseIpv4, hparts, if_neg (by simp), hnumbers]
    show (if [addr.a.toNat, addr.b.toNat, addr.c.toNat].any (255 < ·) then none
      else if 256 ^ 1 ≤ addr.d.toNat then none
      else some (Ipv4Addr.ofNat (addr.d.toNat +
        highParts 3 [addr.a.toNat, addr.b.toNat, addr.c.toNat]))) = some addr
    rw [hlow, if_neg Bool.false_ne_true, if_neg (by omega), ofNat_octets]

/-! ### Domain names -/

theorem parseIpv4Number_of_letter (h : isAsciiAlphabetic b = true) :
  parseIpv4Number (b :: bs) = none
  := by
  have hne : b ≠ char '0' := by
    rintro rfl
    revert h
    decide
  have hdigit : (toDigit 10 b).isSome = false := by
    rw [Bool.eq_false_iff]
    intro hsome
    have hb := isAsciiDigit_of_toDigit hsome
    simp only [isAsciiAlphabetic, isAsciiUppercase, isAsciiLowercase, isAsciiDigit,
      Bool.or_eq_true, Bool.and_eq_true, decide_eq_true_eq, UInt8.le_iff_toNat_le,
      UInt8.reduceToNat] at h hb
    omega
  have hhex : ((ascii "0x").isPrefixOf (b :: bs) || (ascii "0X").isPrefixOf (b :: bs)) = false := by
    rw [Bool.or_eq_false_iff]
    have hbeq : (char '0' == b) = false := beq_false_of_ne hne.symm
    constructor
    · show (char '0' == b && _) = false
      rw [hbeq, Bool.false_and]
    · show (char '0' == b && _) = false
      rw [hbeq, Bool.false_and]
  have hoctal : ¬(2 ≤ (b :: bs).length ∧ (b :: bs).head? = some (char '0')) := by
    rintro ⟨-, hhead⟩
    exact hne (Option.some.inj hhead)
  rw [parseIpv4Number, if_neg (List.cons_ne_nil b bs), hhex, if_neg Bool.false_ne_true,
    if_neg hoctal]
  dsimp only
  rw [if_neg (List.cons_ne_nil b bs), List.all_cons, hdigit, Bool.false_and,
    if_neg Bool.false_ne_true]

/-- A host whose last part starts with a letter does not end in a number. -/
theorem endsInNumber_of_letter {host bs : Bytes}
    (hlast : (host.splitOn (char '.')).getLast? = some (b :: bs)) (h : isAsciiAlphabetic b = true) :
  endsInNumber host = false
  := by
  have hdigit : isAsciiDigit b = false := by
    rw [Bool.eq_false_iff]
    intro hb
    simp only [isAsciiAlphabetic, isAsciiUppercase, isAsciiLowercase, isAsciiDigit,
      Bool.or_eq_true, Bool.and_eq_true, decide_eq_true_eq, UInt8.le_iff_toNat_le,
      UInt8.reduceToNat] at h hb
    omega
  have hparts : hostParts host = host.splitOn (char '.') := by
    rw [hostParts, if_neg]
    rintro ⟨hnil, -⟩
    rw [hlast] at hnil
    cases hnil
  have hlastD : (hostParts host).getLastD [] = b :: bs := by
    rw [hparts, List.getLastD_eq_getLast?, hlast]
    rfl
  rw [endsInNumber, hlastD, if_neg]
  · rw [parseIpv4Number_of_letter h]
    rfl
  · rintro ⟨-, hall⟩
    rw [List.all_cons, hdigit] at hall
    cases hall

end Net

/-!
## URLs

URLs in their parts, and the library that parses them.
-/

namespace Net

open Bytes

/-- A URL. -/
structure Url where
  scheme : Bytes
  username : Bytes
  password : Option Bytes
  host : Option Host
  path : Bytes
  query : Option Bytes
  fragment : Option Bytes
  deriving DecidableEq

/-- The host of a URL in text. -/
def Url.hostStr (url : Url) : Option Bytes := url.host.map Host.toText

/-- The URL library: its parser, and how it writes the names and values of a form. -/
structure UrlLibrary extends HostLibrary where
  parse : Bytes → Except Bytes Url
  formSerialize : List (Bytes × Bytes) → Bytes

/-- The URL library follows the URL Standard in what it takes for the host of a plain URL. -/
structure UrlLibrary.Standard (lib : UrlLibrary) : Prop where
  lowersAscii : lib.LowersAscii
  parse_https : ∀ host path, IsPlain host → host ≠ [] →
    (lib.parse (ascii "https://" ++ host ++ char '/' :: path)).toOption.map Url.host =
      (parseHost lib.toHostLibrary host).map some

/-! ### A library of plain URLs -/

/-- The names of ASCII characters, in lower case. -/
def HostLibrary.ascii : HostLibrary where
  domainToAscii bs := if IsAscii bs then some (bs.map toAsciiLowercase) else none
  parseIpv6 bs := (readIpv6 bs).map Prod.fst

/-- Parse a URL of the secure scheme without a port, a query and a fragment. -/
def parsePlain (text : Bytes) : Except Bytes Url :=
  match stripPrefix (Bytes.ascii "https://") text with
  | none => .error (Bytes.ascii "relative URL without a base")
  | some rest =>
      let (host, path) := (splitOnce (char '/') rest).getD (rest, [])
      match parseHost .ascii host with
      | none => .error (Bytes.ascii "invalid host")
      | some host => .ok ⟨Bytes.ascii "https", [], none, some host, char '/' :: path, none, none⟩

/-- A URL library that parses such URLs only. -/
def UrlLibrary.plain : UrlLibrary where
  toHostLibrary := .ascii
  parse := parsePlain
  formSerialize _ := []

theorem UrlLibrary.plain_standard :
  UrlLibrary.plain.Standard
  := by
  constructor
  · intro bs hbs
    exact .inr (if_pos hbs)
  · intro host path hplain _
    have hslash : char '/' ∉ host := fun hmem => hplain.ne hmem (by decide) rfl
    show (parsePlain (Bytes.ascii "https://" ++ host ++ char '/' :: path)).toOption.map Url.host =
      (parseHost .ascii host).map some
    rw [List.append_assoc, parsePlain, stripPrefix_append]
    dsimp only
    rw [splitOnce_append hslash]
    dsimp only [Option.getD_some]
    cases parseHost .ascii host with
    | none => rfl
    | some host => rfl

end Net
