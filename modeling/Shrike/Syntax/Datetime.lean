import Shrike.Data.Text

/-!
# Datetimes

The texts of datetimes: a date and a time of day with an optional fraction of a second and a time
zone.
-/

namespace Shrike.Syntax

open Bytes

namespace Datetime

/-- There is a digit at a place of a text. -/
def digitAt (raw : Bytes) (i : ℕ) : Bool := isAsciiDigit (raw.getD i 0)

/-- The number of the two digits at a place of a text. -/
def twoDigits (raw : Bytes) (i : ℕ) : ℕ :=
  ((raw.getD i 0).toNat - 48) * 10 + ((raw.getD (i + 1) 0).toNat - 48)

/-- The text is a time zone: `Z`, or an offset other than `-00:00`. -/
def validateTimezone : Bytes → Bool
  | [] => false
  | b :: zone =>
      if b = char 'Z' then zone = []
      else if b = char '+' ∨ b = char '-' then
        b :: zone ≠ ascii "-00:00" && digitAt zone 0 && digitAt zone 1 && zone.getD 2 0 == char ':' &&
          digitAt zone 3 && digitAt zone 4 && twoDigits zone 0 ≤ 23 && twoDigits zone 3 ≤ 59 &&
          zone.length == 5
      else false

/-- What follows the fraction of a second, if there is one. -/
def afterFraction : Bytes → Option Bytes
  | [] => some []
  | b :: rest =>
      if b = char '.' then
        if (rest.takeWhile isAsciiDigit) = [] then none else some (rest.dropWhile isAsciiDigit)
      else some (b :: rest)

/-- Validate the structure of a datetime. -/
def validateDatetimeSyntax (raw : Bytes) : Bool :=
  20 ≤ raw.length && [0, 1, 2, 3, 5, 6, 8, 9, 11, 12, 14, 15, 17, 18].all (digitAt raw) &&
    raw.getD 4 0 == char '-' && raw.getD 7 0 == char '-' && raw.getD 10 0 == char 'T' &&
    raw.getD 13 0 == char ':' && raw.getD 16 0 == char ':' &&
    1 ≤ twoDigits raw 5 && twoDigits raw 5 ≤ 12 && 1 ≤ twoDigits raw 8 && twoDigits raw 8 ≤ 31 &&
    twoDigits raw 11 ≤ 23 && twoDigits raw 14 ≤ 59 && twoDigits raw 17 ≤ 60 &&
    (afterFraction (raw.drop 19)).any validateTimezone

/-- Validate a datetime. -/
def validate (raw : Bytes) : Except String Unit :=
  if raw = [] then .error "empty"
  else if 64 < raw.length then .error "too long"
  else if validateDatetimeSyntax raw then .ok ()
  else .error "invalid datetime syntax"

end Datetime

/-- A datetime. -/
structure Datetime where
  raw : Bytes
  valid : Datetime.validate raw = .ok ()

/-- The datetime that a string spells. -/
def Datetime.tryFrom (raw : Bytes) : Except String Datetime :=
  match h : Datetime.validate raw with
  | .error e => .error e
  | .ok () => .ok ⟨raw, h⟩

theorem Datetime.tryFrom_eq_ok {raw : Bytes} {datetime : Datetime} :
  Datetime.tryFrom raw = .ok datetime ↔ datetime.raw = raw
  := by
  obtain ⟨text, hvalid⟩ := datetime
  rw [tryFrom]
  split
  · rename_i e he
    constructor
    · nofun
    · rintro rfl
      rw [hvalid] at he
      cases he
  · simp [eq_comm]

end Shrike.Syntax
