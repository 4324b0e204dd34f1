import LoxLang.Decimal.Shortest

/-! # Numerals

How a double is written: the digits of its shortest decimal, laid out with a point while the
number is of moderate size and with an exponent outside it. A `NumeralStyle` holds what may
differ between two ways of writing. -/

namespace LoxLang

/-- What a way of writing numbers is free to choose. -/
structure NumeralStyle where
  /-- Written after the digits of a whole number. -/
  wholeMark : String
  /-- The name of what is no number. -/
  notANumber : String
  /-- The name of infinity. -/
  infinity : String

namespace NumeralStyle

/-- Numbers as the printing of a program shows them: whole numbers without a point. -/
def display : NumeralStyle := ⟨"", "NaN", "Infinity"⟩

/-- Numbers as a token list shows them: a whole number keeps its point. -/
def exact : NumeralStyle := ⟨".0", "nan", "inf"⟩

end NumeralStyle

namespace Decimal

/-- The digits of a positive number's coefficient without the zeros at its end, and the power of
ten of the first digit. -/
def digits (d : Decimal) : List Char × Int :=
  let all := Nat.toDigits 10 d.coefficient
  let kept := (all.reverse.dropWhile (· = '0')).reverse
  (kept, d.exponent + all.length - 1)

/-- The powers of ten of the first digit from which on numbers are written with an exponent. -/
def positionalEnd : Int := 16

/-- The least power of ten of the first digit at which numbers are written without one. -/
def positionalStart : Int := -4

/-- An exponent has a sign and at least two digits. -/
def exponentText (e : Int) : String :=
  let digits := Nat.toDigits 10 e.natAbs
  let padded := if digits.length < 2 then '0' :: digits else digits
  (if e < 0 then "e-" else "e+") ++ String.ofList padded

/-- The digits `ds`, the first of which has the power of ten `lead`, with a point or an
exponent. -/
def layOut (style : NumeralStyle) (ds : List Char) (lead : Int) : String :=
  if positionalStart ≤ lead ∧ lead < positionalEnd then
    if lead < 0 then
      "0." ++ String.ofList (List.replicate (-lead - 1).toNat '0' ++ ds)
    else
      let whole := lead.toNat + 1
      if ds.length ≤ whole then
        String.ofList (ds ++ List.replicate (whole - ds.length) '0') ++ style.wholeMark
      else
        String.ofList (ds.take whole) ++ "." ++ String.ofList (ds.drop whole)
  else
    let first := ds.take 1
    let more := ds.drop 1
    String.ofList (if more = [] then first else first ++ '.' :: more) ++ exponentText lead

end Decimal

namespace Binary

/-- The text of a number in the given style. -/
def numeral (style : NumeralStyle) : Binary → String
  | notANumber => style.notANumber
  | infinite negative => (if negative then "-" else "") ++ style.infinity
  | finite negative significand exponent =>
    (if negative then "-" else "") ++
      if significand = 0 then "0" ++ style.wholeMark
      else
        let (ds, lead) := (Decimal.shortest significand exponent).digits
        Decimal.layOut style ds lead

end Binary

/-- The text of a double in the given style. -/
def numeral (style : NumeralStyle) (x : Float) : String :=
  (Binary.ofFloat x).numeral style

end LoxLang
