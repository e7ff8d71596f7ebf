import Shrike.Net.Number

/-!
# Internet addresses

IPv4 and IPv6 addresses, how they are written, and the strict reader of them: four decimal parts,
or eight groups of hexadecimal digits of which a run of zeros may be left out.
-/

namespace Net

open Bytes

/-- An IPv4 address. -/
structure Ipv4Addr where
  a : UInt8
  b : UInt8
  c : UInt8
  d : UInt8
  deriving DecidableEq

/-- An IPv6 address. -/
structure Ipv6Addr where
  segments : List UInt16
  length_eq : segments.length = 8
  deriving DecidableEq

/-- An address. -/
inductive IpAddr where
  | v4 (addr : Ipv4Addr)
  | v6 (addr : Ipv6Addr)

/-! ### Kinds of addresses -/

namespace Ipv4Addr

def isPrivate (addr : Ipv4Addr) : Bool :=
  addr.a == 10 || (addr.a == 172 && 16 ≤ addr.b && addr.b ≤ 31) || (addr.a == 192 && addr.b == 168)

def isLoopback (addr : Ipv4Addr) : Bool := addr.a == 127

def isLinkLocal (addr : Ipv4Addr) : Bool := addr.a == 169 && addr.b == 254

def isUnspecified (addr : Ipv4Addr) : Bool := addr == ⟨0, 0, 0, 0⟩

def isBroadcast (addr : Ipv4Addr) : Bool := addr == ⟨255, 255, 255, 255⟩

/-- Addresses that are reserved for examples. -/
def isDocumentation (addr : Ipv4Addr) : Bool :=
  (addr.a == 192 && addr.b == 0 && addr.c == 2) ||
    (addr.a == 198 && addr.b == 51 && addr.c == 100) ||
    (addr.a == 203 && addr.b == 0 && addr.c == 113)

end Ipv4Addr

namespace Ipv6Addr

def isLoopback (addr : Ipv6Addr) : Bool := addr.segments == [0, 0, 0, 0, 0, 0, 0, 1]

def isUnspecified (addr : Ipv6Addr) : Bool := addr.segments == [0, 0, 0, 0, 0, 0, 0, 0]

/-- The IPv4 address that an IPv6 address stands for. -/
def toIpv4Mapped (addr : Ipv6Addr) : Option Ipv4Addr :=
  match addr.segments with
  | [0, 0, 0, 0, 0, 0xffff, high, low] =>
      some ⟨UInt8.ofNat (high.toNat / 256), UInt8.ofNat high.toNat, UInt8.ofNat (low.toNat / 256),
        UInt8.ofNat low.toNat⟩
  | _ => none

end Ipv6Addr

/-! ### Writing -/

/-- An IPv4 address in text. -/
def Ipv4Addr.toText (addr : Ipv4Addr) : Bytes :=
  join (char '.') ([addr.a, addr.b, addr.c, addr.d].map fun octet => Bytes.toText 10 octet.toNat)

/-- Groups of hexadecimal digits in text. -/
def groupsText (segments : List UInt16) : Bytes :=
  join (char ':') (segments.map fun segment => Bytes.toText 16 segment.toNat)

/-- A run of zeros in an IPv6 address. -/
structure ZeroRun (segments : List UInt16) where
  start : ℕ
  length : ℕ
  pos : 0 < length
  le : start + length ≤ segments.length
  zero : (segments.drop start).take length = List.replicate length 0

/-- The number of zeros that a list of groups starts with. -/
def leadingZeros (segments : List UInt16) : ℕ := (segments.takeWhile (· = 0)).length

theorem take_leadingZeros (segments : List UInt16) :
  segments.take (leadingZeros segments) = List.replicate (leadingZeros segments) 0
  := by
  have htake := List.prefix_iff_eq_take.mp (List.takeWhile_prefix (l := segments) (fun x => x = 0))
  rw [leadingZeros, ← htake, List.eq_replicate_iff]
  constructor
  · rfl
  · intro segment hmem
    simpa using (List.all_eq_true.mp List.all_takeWhile) segment hmem

theorem leadingZeros_le (segments : List UInt16) :
  leadingZeros segments ≤ segments.length
  := (List.takeWhile_prefix _).length_le

/-- The run of zeros at a position, if there are at least two. -/
def zeroRunAt (segments : List UInt16) (start : ℕ) : Option (ZeroRun segments) :=
  if h : 2 ≤ leadingZeros (segments.drop start) then
    some {
      start
      length := leadingZeros (segments.drop start)
      pos := by omega
      le := by
        have hle := leadingZeros_le (segments.drop start)
        rw [List.length_drop] at hle
        omega
      zero := take_leadingZeros _ }
  else none

/-- The longer one of two runs, the first one if they are of one length. -/
def longerRun {segments : List UInt16} :
    Option (ZeroRun segments) → Option (ZeroRun segments) → Option (ZeroRun segments)
  | some run, some run' => if run.length < run'.length then some run' else some run
  | none, run => run
  | run, none => run

/-- The first one of the longest runs of at least two zeros. -/
def longestZeroRun (segments : List UInt16) : Option (ZeroRun segments) :=
  ((List.range segments.length).map (zeroRunAt segments)).foldl longerRun none

/-- An IPv6 address in text: the first one of the longest runs of zeros is left out. -/
def Ipv6Addr.toText (addr : Ipv6Addr) : Bytes :=
  match longestZeroRun addr.segments with
  | none => groupsText addr.segments
  | some run =>
      groupsText (addr.segments.take run.start) ++ ascii "::" ++
        groupsText (addr.segments.drop (run.start + run.length))

/-! ### Reading -/

/-- Read a decimal number of at most three digits and below 256. -/
def readOctet (bs : Bytes) : Option (UInt8 × Bytes) :=
  (readNumber 10 3 false 256 bs).map fun part => (UInt8.ofNat part.1, part.2)

/-- Read a dot and a number. -/
def readNextOctet (bs : Bytes) : Option (UInt8 × Bytes) := (readChar (char '.') bs).bind readOctet

/-- Read an IPv4 address. -/
def readIpv4 (bs : Bytes) : Option (Ipv4Addr × Bytes) := do
  let (a, bs) ← readOctet bs
  let (b, bs) ← readNextOctet bs
  let (c, bs) ← readNextOctet bs
  let (d, bs) ← readNextOctet bs
  some (⟨a, b, c, d⟩, bs)

/-- Read the colon before a group that is not the first one. -/
def readSeparator (i : ℕ) (bs : Bytes) : Option Bytes :=
  if i = 0 then some bs else readChar (char ':') bs

/-- Read groups of hexadecimal digits, at most `remaining` ones, of which the last two may be
given by an IPv4 address. -/
def readGroups : ℕ → ℕ → Bytes → List UInt16 × Bool × Bytes
  | 0, _, bs => ([], false, bs)
  | remaining + 1, i, bs =>
      match if 0 < remaining then (readSeparator i bs).bind readIpv4 else none with
      | some (addr, rest) =>
          ([UInt16.ofNat (addr.a.toNat * 256 + addr.b.toNat),
            UInt16.ofNat (addr.c.toNat * 256 + addr.d.toNat)], true, rest)
      | none =>
          match (readSeparator i bs).bind (readNumber 16 4 true (2 ^ 16)) with
          | none => ([], false, bs)
          | some (group, rest) =>
              let (groups, embedded, rest) := readGroups remaining (i + 1) rest
              (UInt16.ofNat group :: groups, embedded, rest)

/-- Read the groups of an IPv6 address: eight of them, or fewer around two colons. -/
def readSegments (bs : Bytes) : Option (List UInt16 × Bytes) :=
  let (head, embedded, rest) := readGroups 8 0 bs
  if head.length = 8 then some (head, rest)
  else if embedded then none
  else do
    let rest ← readChar (char ':') rest
    let rest ← readChar (char ':') rest
    let (tail, _, rest) := readGroups (7 - head.length) 0 rest
    some (head ++ List.replicate (8 - head.length - tail.length) 0 ++ tail, rest)

/-- Read an IPv6 address. -/
def readIpv6 (bs : Bytes) : Option (Ipv6Addr × Bytes) := do
  let (segments, rest) ← readSegments bs
  if h : segments.length = 8 then some (⟨segments, h⟩, rest) else none

/-- Parse an address. -/
def parseIpAddr (bs : Bytes) : Option IpAddr :=
  match readIpv4 bs with
  | some (addr, rest) => if rest = [] then some (.v4 addr) else none
  | none =>
      match readIpv6 bs with
      | some (addr, rest) => if rest = [] then some (.v6 addr) else none
      | none => none

/-! ### Reading what is written -/

variable {bs rest : Bytes}

theorem readOctet_toText (octet : UInt8) (hrest : ∀ b ∈ rest.head?, toDigit 10 b = none) :
  readOctet (Bytes.toText 10 octet.toNat ++ rest) = some (octet, rest)
  := by
  have hlt : octet.toNat < 256 := octet.toNat_lt
  rw [readOctet, readNumber_toText (by decide) (by omega) (by decide) hlt hrest, Option.map_some,
    UInt8.ofNat_toNat]

theorem readNextOctet_toText (octet : UInt8) (hrest : ∀ b ∈ rest.head?, toDigit 10 b = none) :
  readNextOctet (char '.' :: (Bytes.toText 10 octet.toNat ++ rest)) = some (octet, rest)
  := by
  rw [readNextOctet, readChar, if_pos rfl, Option.bind_some, readOctet_toText octet hrest]

/-- An IPv4 address is read from its text. -/
theorem readIpv4_toText (addr : Ipv4Addr) :
  readIpv4 addr.toText = some (addr, [])
  := by
  have hdot : ∀ bs : Bytes, ∀ b ∈ (char '.' :: bs).head?, toDigit 10 b = none := by
    intro bs b hb
    rw [List.head?_cons, Option.mem_some_iff] at hb
    rw [← hb]
    decide
  have hend : ∀ b ∈ ([] : Bytes).head?, toDigit 10 b = none := by
    intro b hb
    cases hb
  have htext : addr.toText = Bytes.toText 10 addr.a.toNat ++ char '.' ::
      (Bytes.toText 10 addr.b.toNat ++ char '.' :: (Bytes.toText 10 addr.c.toNat ++ char '.' ::
        (Bytes.toText 10 addr.d.toNat ++ []))) := by
    rw [Ipv4Addr.toText, List.map_cons, List.map_cons, List.map_cons, List.map_cons, List.map_nil,
      join_cons_cons, join_cons_cons, join_cons_cons, join_singleton, List.append_nil]
  rw [htext, readIpv4, readOctet_toText _ (hdot _)]
  dsimp only [Option.bind_eq_bind, Option.bind_some]
  rw [readNextOctet_toText _ (hdot _), Option.bind_some, readNextOctet_toText _ (hdot _),
    Option.bind_some, readNextOctet_toText _ hend, Option.bind_some]

/-- Text that contains no dot starts with no IPv4 address. -/
theorem readIpv4_eq_none (h : char '.' ∉ bs) :
  readIpv4 bs = none
  := by
  rw [readIpv4, Option.bind_eq_bind, Option.bind_eq_none_iff]
  rintro ⟨a, rest⟩ ha
  obtain ⟨⟨n, rest'⟩, hn, hrest⟩ := Option.map_eq_some_iff.mp ha
  obtain ⟨-, rfl⟩ := Prod.mk.inj hrest
  obtain ⟨text, rfl, -⟩ := readNumber_some hn
  have hnone : readChar (char '.') rest' = none := by
    cases hchar : readChar (char '.') rest' with
    | none => rfl
    | some rest =>
        exfalso
        apply h
        rw [readChar_some hchar]
        apply List.mem_append_right _ List.mem_cons_self
  show (readNextOctet rest').bind _ = none
  rw [readNextOctet, hnone]
  rfl

/-- Groups in text, with a colon before each one that is not the first one. -/
def groupsFrom : ℕ → List UInt16 → Bytes
  | _, [] => []
  | i, segment :: segments =>
      (if i = 0 then [] else [char ':']) ++ Bytes.toText 16 segment.toNat ++
        groupsFrom (i + 1) segments

theorem groupsText_eq_groupsFrom (segments : List UInt16) :
  groupsText segments = groupsFrom 0 segments
  := by
  have hcons : ∀ (segment : UInt16) (segments : List UInt16) (i : ℕ),
      groupsText (segment :: segments) =
        Bytes.toText 16 segment.toNat ++ groupsFrom (i + 1) segments := by
    intro segment segments i
    induction segments generalizing segment i with
    | nil =>
        rw [groupsText, groupsFrom, List.append_nil]
        apply join_singleton
    | cons next segments ih =>
        rw [groupsFrom, if_neg (Nat.succ_ne_zero i), List.append_assoc, ← ih next (i + 1)]
        apply join_cons_cons
  cases segments with
  | nil => rfl
  | cons segment segments => apply hcons segment segments 0

/-- No group follows: the text is at its end, or at two colons. -/
def Ends (rest : Bytes) : Prop := rest = [] ∨ ∃ bs, rest = char ':' :: char ':' :: bs

theorem Ends.no_digit (h : Ends rest) :
  ∀ b ∈ rest.head?, toDigit 16 b = none
  := by
  rcases h with rfl | ⟨bs, rfl⟩
  · intro b hb
    cases hb
  · intro b hb
    rw [List.head?_cons, Option.mem_some_iff] at hb
    rw [← hb]
    decide

theorem readNumber_eq_none {radix maxDigits bound : ℕ} {allowZeroPrefix : Bool}
    (h : ∀ b ∈ bs.head?, toDigit radix b = none) :
  readNumber radix maxDigits allowZeroPrefix bound bs = none
  := by
  have hnil : digitsOf radix bs = [] := by
    cases bs with
    | nil => rfl
    | cons b bs =>
        rw [digitsOf, List.takeWhile_cons_of_neg]
        rw [h b rfl]
        decide
  rw [readNumber, if_pos (.inl hnil)]

theorem Ends.readSeparator (h : Ends rest) (i : ℕ) :
  (readSeparator i rest).bind (readNumber 16 4 true (2 ^ 16)) = none
  := by
  rw [Net.readSeparator]
  split_ifs with hi
  · rw [Option.bind_some]
    apply readNumber_eq_none h.no_digit
  · rcases h with rfl | ⟨bs, rfl⟩
    · rfl
    · rw [readChar, if_pos rfl, Option.bind_some]
      apply readNumber_eq_none
      intro b hb
      rw [List.head?_cons, Option.mem_some_iff] at hb
      rw [← hb]
      decide

theorem readSeparator_readIpv4 (h : char '.' ∉ bs) (i : ℕ) :
  (readSeparator i bs).bind readIpv4 = none
  := by
  rw [readSeparator]
  split_ifs
  · apply readIpv4_eq_none h
  · cases hchar : readChar (char ':') bs with
    | none => rfl
    | some rest =>
        apply readIpv4_eq_none
        intro hmem
        rw [readChar_some hchar] at h
        exact h (List.mem_cons_of_mem _ hmem)

theorem not_mem_groupsFrom (i : ℕ) (segments : List UInt16) :
  char '.' ∉ groupsFrom i segments
  := by
  induction segments generalizing i with
  | nil => exact List.not_mem_nil
  | cons segment segments ih =>
      rw [groupsFrom, List.mem_append, List.mem_append, not_or, not_or]
      refine ⟨⟨?_, ?_⟩, ih (i + 1)⟩
      · split_ifs
        · exact List.not_mem_nil
        · decide
      · intro hmem
        have hdigit := isSome_toDigit_of_mem_toText (by decide) hmem
        revert hdigit
        decide

theorem readSeparator_append (i : ℕ) (bs : Bytes) :
  readSeparator i ((if i = 0 then [] else [char ':']) ++ bs) = some bs
  := by
  rw [readSeparator]
  split_ifs
  · rfl
  · rw [List.singleton_append, readChar, if_pos rfl]

/-- Groups are read from their text. -/
theorem readGroups_groupsFrom (segments : List UInt16) (hrest : Ends rest)
    (hdot : char '.' ∉ rest) (remaining : ℕ) (hle : segments.length ≤ remaining) (i : ℕ) :
  readGroups remaining i (groupsFrom i segments ++ rest) = (segments, false, rest)
  := by
  have hmem : char '.' ∉ groupsFrom i segments ++ rest := by
    rw [List.mem_append, not_or]
    exact ⟨not_mem_groupsFrom i segments, hdot⟩
  have hipv4 : ∀ n : ℕ, (if 0 < n then
      (readSeparator i (groupsFrom i segments ++ rest)).bind readIpv4 else none) = none := by
    intro n
    rw [readSeparator_readIpv4 hmem, ite_self]
  induction segments generalizing remaining i with
  | nil =>
      cases remaining with
      | zero => rfl
      | succ remaining =>
          rw [readGroups, hipv4]
          dsimp only [groupsFrom, List.nil_append]
          rw [hrest.readSeparator]
  | cons segment segments ih =>
      cases remaining with
      | zero => cases hle
      | succ remaining =>
          have hmem' : char '.' ∉ groupsFrom (i + 1) segments ++ rest := by
            rw [List.mem_append, not_or]
            exact ⟨not_mem_groupsFrom _ segments, hdot⟩
          have hnext : ∀ b ∈ (groupsFrom (i + 1) segments ++ rest).head?, toDigit 16 b = none := by
            cases segments with
            | nil => exact hrest.no_digit
            | cons next segments =>
                intro b hb
                cases hb
                decide
          have hnumber : (readSeparator i (groupsFrom i (segment :: segments) ++ rest)).bind
              (readNumber 16 4 true (2 ^ 16)) =
                some (segment.toNat, groupsFrom (i + 1) segments ++ rest) := by
            rw [groupsFrom, List.append_assoc, List.append_assoc, readSeparator_append,
              Option.bind_some]
            exact readNumber_toText (by decide) segment.toNat_lt (by decide) segment.toNat_lt hnext
          rw [readGroups, hipv4, hnumber]
          dsimp only
          rw [ih _ (Nat.le_of_succ_le_succ hle) (i + 1) hmem', UInt16.ofNat_toNat]
          intro n
          rw [readSeparator_readIpv4 hmem', ite_self]

variable {b c : UInt8} {segments : List UInt16}

theorem readSegments_groupsText (h : segments.length = 8) :
  readSegments (groupsText segments) = some (segments, [])
  := by
  have hread := readGroups_groupsFrom segments (.inl rfl) List.not_mem_nil 8 (Nat.le_of_eq h) 0
  rw [List.append_nil, ← groupsText_eq_groupsFrom] at hread
  rw [readSegments, hread]
  exact if_pos h

/-- The groups of an address with a run of zeros are read from those around the run. -/
theorem readSegments_zeroRun (h : segments.length = 8) (run : ZeroRun segments) :
  readSegments (groupsText (segments.take run.start) ++ ascii "::" ++
    groupsText (segments.drop (run.start + run.length))) = some (segments, [])
  := by
  have hpos := run.pos
  have hle := run.le
  have htake : (segments.take run.start).length = run.start := by
    rw [List.length_take]
    omega
  have hdrop : (segments.drop (run.start + run.length)).length =
      8 - run.start - run.length := by
    rw [List.length_drop]
    omega
  have hcolons : ∀ bs : Bytes, Ends (ascii "::" ++ bs) := fun bs => .inr ⟨bs, rfl⟩
  have hhead := readGroups_groupsFrom (segments.take run.start)
    (hcolons (groupsText (segments.drop (run.start + run.length))))
    (by
      rw [groupsText_eq_groupsFrom, List.mem_append, not_or]
      exact ⟨by decide, not_mem_groupsFrom 0 _⟩)
    8 (by omega) 0
  have htail := readGroups_groupsFrom (segments.drop (run.start + run.length))
    (.inl rfl) List.not_mem_nil (7 - run.start) (by omega) 0
  rw [List.append_nil, ← groupsText_eq_groupsFrom] at htail
  rw [← groupsText_eq_groupsFrom] at hhead
  have hsegments : segments.take run.start ++ List.replicate run.length 0 ++
      segments.drop (run.start + run.length) = segments := by
    rw [← run.zero, ← List.drop_drop, List.append_assoc, List.take_append_drop,
      List.take_append_drop]
  have hzeros : 8 - run.start - (8 - run.start - run.length) = run.length := by omega
  rw [List.append_assoc, readSegments, hhead]
  dsimp only
  rw [if_neg (by omega), if_neg (by decide)]
  show (do
    let (tail, _, rest) := readGroups (7 - (segments.take run.start).length) 0
      (groupsText (segments.drop (run.start + run.length)))
    some (segments.take run.start ++ List.replicate
      (8 - (segments.take run.start).length - tail.length) 0 ++ tail, rest)) = some (segments, [])
  rw [htake, htail]
  dsimp only
  rw [hdrop, hzeros, hsegments]

/-- An IPv6 address is read from its text. -/
theorem readIpv6_toText (addr : Ipv6Addr) :
  readIpv6 addr.toText = some (addr, [])
  := by
  have hread : readSegments addr.toText = some (addr.segments, []) := by
    rw [Ipv6Addr.toText]
    split
    · apply readSegments_groupsText addr.length_eq
    · apply readSegments_zeroRun addr.length_eq
  rw [readIpv6, hread]
  exact dif_pos addr.length_eq

theorem readIpv4_ipv6Text (addr : Ipv6Addr) :
  readIpv4 addr.toText = none
  := by
  apply readIpv4_eq_none
  rw [Ipv6Addr.toText]
  split
  · rw [groupsText_eq_groupsFrom]
    apply not_mem_groupsFrom
  · rw [groupsText_eq_groupsFrom, groupsText_eq_groupsFrom, List.mem_append, List.mem_append,
      not_or, not_or]
    exact ⟨⟨not_mem_groupsFrom 0 _, by decide⟩, not_mem_groupsFrom 0 _⟩

/-- An address in text. -/
def IpAddr.toText : IpAddr → Bytes
  | .v4 addr => addr.toText
  | .v6 addr => addr.toText

/-- An address is parsed from its text. -/
theorem parseIpAddr_toText (addr : IpAddr) :
  parseIpAddr addr.toText = some addr
  := by
  cases addr with
  | v4 addr =>
      rw [IpAddr.toText, parseIpAddr, readIpv4_toText]
      rfl
  | v6 addr =>
      rw [IpAddr.toText, parseIpAddr, readIpv4_ipv6Text, readIpv6_toText]
      rfl

theorem readChar_eq_none (h : c ∉ bs) :
  readChar c bs = none
  := by
  cases hread : readChar c bs with
  | none => rfl
  | some rest =>
      rw [readChar_some hread] at h
      exact absurd List.mem_cons_self h

/-- At most one group is read from text without a colon. -/
theorem readGroups_of_not_mem (h : char ':' ∉ bs) (hipv4 : readIpv4 bs = none) :
  ∃ head rest, readGroups 8 0 bs = (head, false, rest) ∧ head.length ≤ 1 ∧ char ':' ∉ rest
  := by
  have hfirst : (if 0 < 7 then (readSeparator 0 bs).bind readIpv4 else none) = none := hipv4
  rw [readGroups, hfirst]
  dsimp only
  cases hnumber : (readSeparator 0 bs).bind (readNumber 16 4 true (2 ^ 16)) with
  | none => exact ⟨[], bs, rfl, Nat.zero_le 1, h⟩
  | some part =>
      obtain ⟨group, rest⟩ := part
      obtain ⟨text, hbs, -⟩ := readNumber_some hnumber
      have hrest : char ':' ∉ rest := by
        intro hmem
        rw [hbs] at h
        exact h (List.mem_append_right text hmem)
      have hsep : readSeparator 1 rest = none := readChar_eq_none hrest
      have hgroups : readGroups 7 1 rest = ([], false, rest) := by
        rw [readGroups, hsep]
        rfl
      dsimp only
      rw [hgroups]
      exact ⟨[UInt16.ofNat group], rest, rfl, Nat.le_refl 1, hrest⟩

/-- Text without a colon that starts with no IPv4 address is no IPv6 address. -/
theorem readIpv6_eq_none (h : char ':' ∉ bs) (hipv4 : readIpv4 bs = none) :
  readIpv6 bs = none
  := by
  obtain ⟨head, rest, hread, hlength, hrest⟩ := readGroups_of_not_mem h hipv4
  have hsegments : readSegments bs = none := by
    rw [readSegments, hread]
    dsimp only
    rw [if_neg (by omega), if_neg Bool.false_ne_true, readChar_eq_none hrest]
    rfl
  rw [readIpv6, hsegments]
  rfl

/-! ### The characters of an address -/

theorem Ipv4Addr.mem_toText {addr : Ipv4Addr} (h : b ∈ addr.toText) :
  b = char '.' ∨ (toDigit 16 b).isSome = true
  := by
  rcases mem_join h with rfl | ⟨part, hpart, hb⟩
  · exact .inl rfl
  · obtain ⟨octet, -, rfl⟩ := List.mem_map.mp hpart
    have hdigit := isSome_toDigit_of_mem_toText (by decide) hb
    obtain ⟨n, hn⟩ := Option.isSome_iff_exists.mp hdigit
    obtain ⟨hn, hlt⟩ := Option.filter_eq_some_iff.mp hn
    rw [toDigit, hn, Option.filter_some, if_pos]
    · exact .inr rfl
    · rw [decide_eq_true_eq] at hlt ⊢
      omega

theorem mem_groupsText (h : b ∈ groupsText segments) :
  b = char ':' ∨ (toDigit 16 b).isSome = true
  := by
  rcases mem_join h with rfl | ⟨part, hpart, hb⟩
  · exact .inl rfl
  · obtain ⟨segment, -, rfl⟩ := List.mem_map.mp hpart
    exact .inr (isSome_toDigit_of_mem_toText (by decide) hb)

theorem Ipv6Addr.mem_toText {addr : Ipv6Addr} (h : b ∈ addr.toText) :
  b = char ':' ∨ (toDigit 16 b).isSome = true
  := by
  rw [Ipv6Addr.toText] at h
  split at h
  · exact mem_groupsText h
  · rw [List.mem_append, List.mem_append] at h
    rcases h with (h | h) | h
    · exact mem_groupsText h
    · rcases List.mem_cons.mp h with rfl | h
      · exact .inl rfl
      · exact .inl (List.mem_singleton.mp h)
    · exact mem_groupsText h

/-- An address in text consists of hexadecimal digits, dots and colons. -/
theorem IpAddr.not_mem_toText {addr : IpAddr} (hdot : b ≠ char '.')
    (hcolon : b ≠ char ':') (hdigit : toDigit 16 b = none) :
  b ∉ addr.toText
  := by
  intro h
  have hmem : b = char '.' ∨ b = char ':' ∨ (toDigit 16 b).isSome = true := by
    cases addr with
    | v4 addr => exact (Ipv4Addr.mem_toText h).imp_right .inr
    | v6 addr => exact .inr (Ipv6Addr.mem_toText h)
  rcases hmem with h | h | h
  · exact hdot h
  · exact hcolon h
  · rw [hdigit] at h
    cases h

end Net
