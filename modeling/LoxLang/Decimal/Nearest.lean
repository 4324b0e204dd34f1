import LoxLang.Decimal.Binary

/-! # The double nearest a decimal

A number written in digits is a fraction of natural numbers. Reading it means choosing the double
nearest to that fraction; halfway between two doubles the one with the even significand is
chosen. -/

namespace LoxLang
namespace Binary

/-- The natural number nearest `numerator / denominator`; halfway, the even one. -/
def roundDiv (numerator denominator : Nat) : Nat :=
  let quotient := numerator / denominator
  let twice := 2 * (numerator % denominator)
  if twice < denominator then quotient
  else if denominator < twice then quotient + 1
  else quotient + quotient % 2

/-- The exponent `k` with `2 ^ k ≤ numerator / denominator < 2 ^ (k + 1)`. The difference of the
two logarithms is it or is one too large. -/
def scale (numerator denominator : Nat) : Int :=
  let guess := (numerator.log2 : Int) - denominator.log2
  if denominator * Nat.pow 2 guess.toNat ≤ numerator * Nat.pow 2 (-guess).toNat then guess
  else guess - 1

/-- The bits of the double nearest `numerator / denominator`. -/
def nearestBits (numerator denominator : Nat) : Nat :=
  if numerator = 0 then 0
  else
    let exponent := max leastExponent (scale numerator denominator - fractionBits)
    toBits (roundDiv (numerator * Nat.pow 2 (-exponent).toNat)
      (denominator * Nat.pow 2 exponent.toNat)) exponent

/-- The double nearest `numerator / denominator`. -/
def nearest (numerator denominator : Nat) : Float :=
  Float.ofBits (UInt64.ofNat (nearestBits numerator denominator))

example : nearestBits 1 1 = 0x3ff0000000000000 := by decide
example : nearestBits 1 10 = 0x3fb999999999999a := by decide
example : nearestBits (2 ^ 53 + 1) 1 = 0x4340000000000000 := by decide

end Binary

/-- The value of a digit character. -/
def digitValue (c : Char) : Nat := c.toNat - '0'.toNat

/-- The number that a run of digits writes. -/
def digitsValue (digits : List Char) : Nat :=
  digits.foldl (fun value c => 10 * value + digitValue c) 0

/-- The double that `whole.fraction` writes. -/
def readDecimal (whole fraction : List Char) : Float :=
  Binary.nearest (digitsValue (whole ++ fraction)) (Nat.pow 10 fraction.length)

end LoxLang
