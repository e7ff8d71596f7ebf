import Shrike.Syntax.Nsid

/-!
# Identifiers

The strings that name repositories, collections, records and revisions. A value of each type
is a string that passed its validation.
-/

namespace Shrike.Syntax

open Bytes

/-- A namespaced identifier, with its authority in lower case. -/
structure Nsid where
  raw : Bytes
  valid : ∃ given lastDot, Nsid.validate given = .ok lastDot ∧ raw = lowercasePrefix lastDot given
  deriving DecidableEq

/-- The NSID that a string spells. -/
def Nsid.tryFrom (raw : Bytes) : Except String Nsid :=
  match h : Nsid.validate raw with
  | .error e => .error e
  | .ok lastDot => .ok ⟨lowercasePrefix lastDot raw, raw, lastDot, h, rfl⟩

theorem Nsid.map_tryFrom (raw : Bytes) :
  (Nsid.tryFrom raw).map Nsid.raw
    = (Nsid.validate raw).map fun lastDot => lowercasePrefix lastDot raw
  := by
  rw [tryFrom]
  split
  · rename_i h
    exact (congrArg (Except.map (fun lastDot => lowercasePrefix lastDot raw)) h).symm
  · rename_i h
    exact (congrArg (Except.map (fun lastDot => lowercasePrefix lastDot raw)) h).symm

theorem Nsid.tryFrom_eq_ok {raw : Bytes} {nsid : Nsid} :
  Nsid.tryFrom raw = .ok nsid
    ↔ ∃ lastDot, Nsid.validate raw = .ok lastDot ∧ nsid.raw = lowercasePrefix lastDot raw
  := by
  obtain ⟨text, hvalid⟩ := nsid
  rw [tryFrom]
  split
  · rename_i e he
    simp [he]
  · rename_i lastDot hlastDot
    simp [hlastDot, eq_comm]

/-! ### Decentralized identifiers -/

/-- The characters of the identifier of a DID. -/
def isDidIdentChar (b : UInt8) : Bool :=
  isAsciiAlphanumeric b || b == char '.' || b == char '_' || b == char ':' || b == char '-'

/-- Validate a DID. -/
def Did.validate (raw : Bytes) : Except String Unit :=
  if raw = [] then .error "empty"
  else if 2048 < raw.length then .error "too long"
  else match stripPrefix (ascii "did:") raw with
    | none => .error "must start with \"did:\""
    | some afterPrefix =>
        match splitOnce (char ':') afterPrefix with
        | none => .error "missing identifier after method"
        | some (method, ident) =>
            if method = [] then .error "empty method"
            else if !method.all isAsciiLowercase then .error "method must be lowercase alpha"
            else if ident = [] then .error "empty identifier"
            else if !ident.all isDidIdentChar then .error "invalid character in identifier"
            else if ident.getLast? = some (char ':') then
              .error "identifier cannot end with ':'"
            else .ok ()

/-- A decentralized identifier. -/
structure Did where
  raw : Bytes
  valid : Did.validate raw = .ok ()
  deriving DecidableEq

namespace Sample

def alice : Did := ⟨ascii "did:plc:alice", by decide⟩

def bob : Did := ⟨ascii "did:plc:bob", by decide⟩

end Sample

/-- The identifier of a DID: what follows its method. -/
def Did.identifier (did : Did) : Bytes :=
  ((splitOnce (char ':') (did.raw.drop 4)).map Prod.snd).getD []

/-- The DID that a string spells. -/
def Did.tryFrom (raw : Bytes) : Except String Did :=
  match h : Did.validate raw with
  | .error e => .error e
  | .ok () => .ok ⟨raw, h⟩

theorem Did.map_tryFrom (raw : Bytes) :
  (Did.tryFrom raw).map Did.raw = (Did.validate raw).map fun _ => raw
  := by
  rw [tryFrom]
  split
  · rename_i h
    exact (congrArg (Except.map (fun _ => raw)) h).symm
  · rename_i h
    exact (congrArg (Except.map (fun _ => raw)) h).symm

theorem Did.tryFrom_eq_ok {raw : Bytes} {did : Did} :
  Did.tryFrom raw = .ok did ↔ did.raw = raw
  := by
  obtain ⟨text, hvalid⟩ := did
  rw [tryFrom]
  split
  · rename_i e he
    constructor
    · nofun
    · rintro rfl
      rw [hvalid] at he
      cases he
  · simp [eq_comm]

/-! ### Handles -/

/-- Validate the labels of a handle in order. -/
def Handle.validateLabels : List Bytes → Except String Unit
  | [] => .ok ()
  | label :: labels => do
      if ¬ IsAscii label then .error "non-ASCII character"
      else do
        Nsid.validateDomainLabel label
        validateLabels labels

/-- Validate a handle. -/
def Handle.validate (raw : Bytes) : Except String Unit :=
  if raw = [] then .error "empty"
  else if 253 < raw.length then .error "too long"
  else do
    let labels := raw.splitOn (char '.')
    Handle.validateLabels labels
    if labels.length < 2 then .error "must have at least two labels"
    else if !(labels.getLastD []).head?.any isAsciiAlphabetic then
      .error "TLD must start with a letter"
    else .ok ()

/-- A handle, in lower case. -/
structure Handle where
  raw : Bytes
  valid : ∃ given, Handle.validate given = .ok () ∧ raw = given.map toAsciiLowercase
  deriving DecidableEq

/-- The handle that a string spells. -/
def Handle.tryFrom (raw : Bytes) : Except String Handle :=
  match h : Handle.validate raw with
  | .error e => .error e
  | .ok () => .ok ⟨raw.map toAsciiLowercase, raw, h, rfl⟩

/-! ### Record keys -/

/-- The characters of a record key. -/
def isRecordKeyChar (b : UInt8) : Bool :=
  isAsciiAlphanumeric b || b == char '_' || b == char '~' || b == char '.' || b == char ':'
    || b == char '-'

/-- Validate a record key. -/
def RecordKey.validate (raw : Bytes) : Except String Unit :=
  if raw = [] then .error "empty"
  else if 512 < raw.length then .error "too long"
  else if raw = ascii "." ∨ raw = ascii ".." then .error "disallowed value"
  else if !raw.all isRecordKeyChar then .error "invalid character"
  else .ok ()

/-- A record key. -/
structure RecordKey where
  raw : Bytes
  valid : RecordKey.validate raw = .ok ()
  deriving DecidableEq

/-- The record key that a string spells. -/
def RecordKey.tryFrom (raw : Bytes) : Except String RecordKey :=
  match h : RecordKey.validate raw with
  | .error e => .error e
  | .ok () => .ok ⟨raw, h⟩

theorem RecordKey.map_tryFrom (raw : Bytes) :
  (RecordKey.tryFrom raw).map RecordKey.raw = (RecordKey.validate raw).map fun _ => raw
  := by
  rw [tryFrom]
  split
  · rename_i h
    exact (congrArg (Except.map (fun _ => raw)) h).symm
  · rename_i h
    exact (congrArg (Except.map (fun _ => raw)) h).symm

theorem RecordKey.tryFrom_eq_ok {raw : Bytes} {rkey : RecordKey} :
  RecordKey.tryFrom raw = .ok rkey ↔ rkey.raw = raw
  := by
  obtain ⟨text, hvalid⟩ := rkey
  rw [tryFrom]
  split
  · rename_i e he
    constructor
    · nofun
    · rintro rfl
      rw [hvalid] at he
      cases he
  · simp [eq_comm]

/-! ### Timestamp identifiers -/

/-- A timestamp identifier: a timestamp and a clock ID in 64 bits. -/
structure Tid where
  value : UInt64
  deriving DecidableEq

namespace Tid

/-- The base32-sort alphabet. -/
def alphabet : Bytes := ascii "234567abcdefghijklmnopqrstuvwxyz"

/-- Whether a character may start a TID: its value leaves the high bit clear. -/
def isTidFirstChar (c : UInt8) : Bool := (50 ≤ c && c ≤ 55) || (97 ≤ c && c ≤ 106)

/-- Whether a character is one of the alphabet. -/
def isTidChar (c : UInt8) : Bool := (50 ≤ c && c ≤ 55) || isAsciiLowercase c

/-- The value of a character of the alphabet. -/
def base32Decode (c : UInt8) : UInt8 := if 50 ≤ c ∧ c ≤ 55 then c - 50 else c - 97 + 6

/-- The TID that a string spells. -/
def tryFrom (raw : Bytes) : Except String Tid :=
  if raw.length ≠ 13 then .error "must be exactly 13 characters"
  else if !raw.head?.any isTidFirstChar then
    .error "invalid first character (high bit would be set)"
  else if !raw.tail.all isTidChar then .error "invalid character"
  else .ok ⟨raw.foldl (fun v b => v <<< 5 ||| (base32Decode b).toUInt64) 0⟩

/-- The last `n` characters of a TID with the given value, before others. -/
def formatFrom : ℕ → UInt64 → Bytes → Bytes
  | 0, _, rest => rest
  | n + 1, v, rest => formatFrom n (v >>> 5) (alphabet.getD (v &&& 0x1f).toNat 0 :: rest)

/-- The text of a TID. -/
def format (tid : Tid) : Bytes := formatFrom 13 tid.value []

/-! ### Round trip -/

/-- The character of a value below 32. -/
def encodeDigit (v : UInt64) : UInt8 := alphabet.getD (v &&& 0x1f).toNat 0

theorem toNat_and_31 (v : UInt64) :
  (v &&& 0x1f).toNat = v.toNat % 32
  := by
  rw [UInt64.toNat_and]
  exact Nat.and_two_pow_sub_one_eq_mod v.toNat 5

theorem base32Decode_digit :
  ∀ i < 32, isTidChar (alphabet.getD i 0) = true ∧ (base32Decode (alphabet.getD i 0)).toNat = i
  := by
  decide +kernel

theorem isTidFirstChar_digit :
  ∀ i < 16, isTidFirstChar (alphabet.getD i 0) = true
  := by
  decide +kernel

theorem toNat_shiftRight_five (v : UInt64) :
  (v >>> 5).toNat = v.toNat / 32
  := by
  rw [UInt64.toNat_shiftRight]
  exact Nat.shiftRight_eq_div_pow v.toNat 5

/-- A value is that of its last character after those before it. -/
theorem shiftLeft_or_digit (v : UInt64) :
  (v >>> 5) <<< 5 ||| (base32Decode (encodeDigit v)).toUInt64 = v
  := by
  have hlt : v.toNat % 32 < 32 := Nat.mod_lt _ (by decide)
  have hdigit := (base32Decode_digit _ hlt).2
  rw [← toNat_and_31] at hdigit
  have hv := v.toNat_lt
  apply UInt64.toNat_inj.mp
  rw [UInt64.toNat_or, UInt64.toNat_shiftLeft, toNat_shiftRight_five, UInt8.toNat_toUInt64, encodeDigit,
    hdigit, toNat_and_31, show (5 : UInt64).toNat % 64 = 5 from rfl, Nat.shiftLeft_eq, 
    Nat.mod_eq_of_lt (by omega)]
  rw [show v.toNat / 32 * 2 ^ 5 = (v.toNat / 32) <<< 5 from (Nat.shiftLeft_eq ..).symm,
    ← Nat.shiftLeft_add_eq_or_of_lt (i := 5) (by omega), Nat.shiftLeft_eq]
  omega

theorem formatFrom_succ (n : ℕ) (v : UInt64) (rest : Bytes) :
  formatFrom (n + 1) v rest = formatFrom n (v >>> 5) (encodeDigit v :: rest)
  := rfl

theorem length_formatFrom (n : ℕ) (v : UInt64) (rest : Bytes) :
  (formatFrom n v rest).length = n + rest.length
  := by
  induction n generalizing v rest with
  | zero => exact (Nat.zero_add _).symm
  | succ n ih =>
      rw [formatFrom_succ, ih, List.length_cons]
      omega

theorem isTidChar_of_mem_formatFrom {n : ℕ} {v : UInt64} {rest : Bytes} {b : UInt8}
    (h : b ∈ formatFrom n v rest) :
  isTidChar b = true ∨ b ∈ rest
  := by
  induction n generalizing v rest with
  | zero => exact .inr h
  | succ n ih =>
      rw [formatFrom_succ] at h
      rcases ih h with h | h
      · exact .inl h
      · rcases List.mem_cons.mp h with rfl | h
        · left
          rw [encodeDigit, toNat_and_31]
          exact (base32Decode_digit _ (Nat.mod_lt _ (by decide))).1
        · exact .inr h

/-- The first character is that of what is left of the value after the others. -/
theorem head?_formatFrom {n : ℕ} {v : UInt64} (hv : v.toNat < 16 * 32 ^ n) (rest : Bytes) :
  ∃ b, (formatFrom (n + 1) v rest).head? = some b ∧ isTidFirstChar b = true
  := by
  induction n generalizing v rest with
  | zero =>
      refine ⟨encodeDigit v, rfl, ?_⟩
      rw [encodeDigit, toNat_and_31]
      exact isTidFirstChar_digit _ (by omega)
  | succ n ih =>
      rw [formatFrom_succ]
      apply ih
      rw [toNat_shiftRight_five]
      rw [Nat.pow_succ] at hv
      omega

theorem foldl_formatFrom {n : ℕ} {v : UInt64} (hv : v.toNat < 32 ^ n) (rest : Bytes) :
  (formatFrom n v rest).foldl (fun (v : UInt64) b => v <<< 5 ||| (base32Decode b).toUInt64) 0 =
    rest.foldl (fun (v : UInt64) b => v <<< 5 ||| (base32Decode b).toUInt64) v
  := by
  induction n generalizing v rest with
  | zero =>
      have hzero : v = 0 := by
        apply UInt64.toNat_inj.mp
        rw [UInt64.toNat_zero]
        omega
      rw [hzero]
      rfl
  | succ n ih =>
      rw [formatFrom_succ, ih, List.foldl_cons, shiftLeft_or_digit]
      rw [toNat_shiftRight_five]
      rw [Nat.pow_succ] at hv
      omega

/-- The text of a TID spells it. -/
theorem tryFrom_format (tid : Tid) :
  tryFrom tid.format = .ok tid
  := by
  have hlt := tid.value.toNat_lt
  have hlength : tid.format.length = 13 := length_formatFrom 13 tid.value []
  obtain ⟨b, hhead, hfirst⟩ := head?_formatFrom (n := 12) (v := tid.value) (by omega) []
  have hhead' : tid.format.head?.any isTidFirstChar = true := by
    rw [show tid.format.head? = some b from hhead]
    exact hfirst
  have htail : tid.format.tail.all isTidChar = true := by
    rw [List.all_eq_true]
    intro c hc
    exact (isTidChar_of_mem_formatFrom (List.mem_of_mem_tail hc)).resolve_right List.not_mem_nil
  rw [tryFrom, if_neg (not_not_intro hlength), hhead', htail]
  have hvalue := foldl_formatFrom (n := 13) (v := tid.value) (by omega) []
  exact congrArg (fun v => (Except.ok ⟨v⟩ : Except String Tid)) hvalue

end Tid

end Shrike.Syntax
