import DirectoryStore.Text.Utf8

/-!
# Hexadecimal digits

Digits are read in either case.  Escapes in names and in filters write them in one
fixed case.
-/

namespace DirectoryStore
namespace Hex

/-- The value of a hexadecimal digit of either case. -/
def value? (c : Char) : Option Nat :=
  if '0' ≤ c ∧ c ≤ '9' then some (c.toNat - '0'.toNat)
  else if 'a' ≤ c ∧ c ≤ 'f' then some (c.toNat - 'a'.toNat + 10)
  else if 'A' ≤ c ∧ c ≤ 'F' then some (c.toNat - 'A'.toNat + 10)
  else none

/-- A hexadecimal digit of either case. -/
def isDigit (c : Char) : Bool :=
  (value? c).isSome

/-- The byte with the two given digits. -/
def byte? (high low : Char) : Option UInt8 := do
  let h ← value? high
  let l ← value? low
  return UInt8.ofNat (h * 16 + l)

/-- The digit of a value below sixteen, letters in lower case. -/
def lowerDigit (n : Nat) : Char :=
  if n < 10 then Char.ofNat ('0'.toNat + n) else Char.ofNat ('a'.toNat + (n - 10))

/-- The digit of a value below sixteen, letters in upper case. -/
def upperDigit (n : Nat) : Char :=
  if n < 10 then Char.ofNat ('0'.toNat + n) else Char.ofNat ('A'.toNat + (n - 10))

/-- Two lower-case digits for a byte. -/
def lowerPair (b : UInt8) : List Char :=
  [lowerDigit (b.toNat / 16), lowerDigit (b.toNat % 16)]

/-- Two upper-case digits for a byte. -/
def upperPair (b : UInt8) : List Char :=
  [upperDigit (b.toNat / 16), upperDigit (b.toNat % 16)]

/-- A number in lower-case digits, without leading zeros. -/
def ofNat (n : Nat) : List Char :=
  Nat.toDigits 16 n

end Hex
end DirectoryStore
