/-! # Doubles as exact fractions

A double is sixty-four bits. This module says what they stand for: nothing (not a number), an
infinity, or a signed fraction `significand · 2 ^ exponent`. Everything the decimal modules do is
exact arithmetic on that reading; no rounding of the machine takes part in it. -/

namespace LoxLang

/-- What the bits of a double stand for. -/
inductive Binary
  /-- No number at all. -/
  | notANumber
  /-- An infinity of the given sign. -/
  | infinite (negative : Bool)
  /-- The number `significand · 2 ^ exponent` with the given sign. -/
  | finite (negative : Bool) (significand : Nat) (exponent : Int)
  deriving Repr, DecidableEq

namespace Binary

/-- Significands of normal numbers have this many bits below their leading one. -/
def fractionBits : Nat := 52

/-- The exponent of the subnormal numbers, and the least that any number has. -/
def leastExponent : Int := -1074

/-- The bits of the positive infinity. -/
def infinityBits : Nat := 0x7ff0000000000000

/-- The meaning of a bit pattern: one sign bit, eleven exponent bits, the fraction bits. -/
def ofBits (bits : Nat) : Binary :=
  let negative := bits / Nat.pow 2 63 % 2 = 1
  let exponent := bits / Nat.pow 2 fractionBits % Nat.pow 2 11
  let fraction := bits % Nat.pow 2 fractionBits
  if exponent = 0 then
    finite negative fraction leastExponent
  else if exponent < Nat.pow 2 11 - 1 then
    finite negative (Nat.pow 2 fractionBits + fraction) (leastExponent + (exponent - 1 : Nat))
  else if fraction = 0 then
    infinite negative
  else
    notANumber

/-- The meaning of a double. -/
def ofFloat (x : Float) : Binary :=
  ofBits x.toBits.toNat

/-- The bits of the non-negative number `significand · 2 ^ exponent`, for a significand of at most
fifty-three bits. A significand that rounding has carried to `2 ^ 53` moves on to the next
exponent by itself, because the exponent bits stand right above the fraction; what passes the
largest finite number becomes infinity. -/
def toBits (significand : Nat) (exponent : Int) : Nat :=
  min infinityBits ((exponent - leastExponent).toNat * Nat.pow 2 fractionBits + significand)

example : ofBits 0x3ff0000000000000 = finite false (2 ^ 52) (-52) := by decide
example : ofBits 0x8000000000000001 = finite true 1 (-1074) := by decide
example : ofBits 0xfff0000000000000 = infinite true := by decide
example : toBits (2 ^ 52) (-52) = 0x3ff0000000000000 := by decide
example : toBits (2 ^ 53) 971 = infinityBits := by decide

end Binary

end LoxLang
