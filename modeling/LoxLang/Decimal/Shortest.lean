import LoxLang.Decimal.Binary

/-! # The shortest decimal of a double

Many decimals read as one double: all those in the interval between the midpoints to its two
neighbours. Of them the one is chosen that lies on the coarsest grid `10 ^ e`, hence has the
fewest digits, and on that grid the one nearest to the double. -/

namespace LoxLang

/-- The number `coefficient · 10 ^ exponent`. -/
structure Decimal where
  coefficient : Nat
  exponent : Int
  deriving Repr, DecidableEq

namespace Decimal

/-- The decimals that read as `significand · 2 ^ exponent`, compared on one grid: in units of a
common denominator, a step of the grid is `step`, the double lies at `centre`, and the decimals
that read as it lie from `low` to `high`, ends included exactly for an even significand. -/
structure Window where
  step : Nat
  centre : Nat
  low : Nat
  high : Nat
  closed : Bool
  deriving Repr, DecidableEq

namespace Window

/-- The window of `significand · 2 ^ exponent` on the grid `10 ^ grid`. In quarters of the last
place the midpoints are two away; below a power of two the gap to the neighbour is half as wide,
and that midpoint is one away. -/
def of (significand : Nat) (exponent grid : Int) : Window :=
  let quarter := exponent - 2
  let place := Nat.pow 2 quarter.toNat * Nat.pow 10 (-grid).toNat
  let narrow := significand = Nat.pow 2 Binary.fractionBits ∧ Binary.leastExponent < exponent
  { step := Nat.pow 10 grid.toNat * Nat.pow 2 (-quarter).toNat
    centre := 4 * significand * place
    low := (4 * significand - if narrow then 1 else 2) * place
    high := (4 * significand + 2) * place
    closed := significand % 2 = 0 }

/-- Whether the grid point `n` reads as the double. -/
def holds (w : Window) (n : Nat) : Bool :=
  if w.closed then w.low ≤ n * w.step && n * w.step ≤ w.high
  else w.low < n * w.step && n * w.step < w.high

/-- The grid point that reads as the double and is nearest to it; halfway, the even one. Only the
two grid points beside the double can be it. -/
def point? (w : Window) : Option Nat :=
  let below := w.centre / w.step
  let above := below + 1
  match w.holds below, w.holds above with
  | false, false => none
  | true, false => some below
  | false, true => some above
  | true, true =>
    let short := w.centre - below * w.step
    let long := above * w.step - w.centre
    if short < long then some below
    else if long < short then some above
    else some (below + below % 2)

end Window

/-- Looks for a decimal of `significand · 2 ^ exponent` on `fuel` grids, from `grid` to finer
ones. -/
def search (significand : Nat) (exponent : Int) : Nat → Int → Option Decimal
  | 0, _ => none
  | fuel + 1, grid =>
    match (Window.of significand exponent grid).point? with
    | some n => some ⟨n, grid⟩
    | none => search significand exponent fuel (grid - 1)

/-- A grid at least as coarse as any that meets the window: `30103 / 100000` is just above the
decimal logarithm of two. -/
def coarsestGrid (significand : Nat) (exponent : Int) : Int :=
  ((significand.log2 + 1 + exponent) * 30103).fdiv 100000 + 2

/-- The shortest decimal that reads as `significand · 2 ^ exponent`. Seventeen digits always
suffice, so the search ends long before its twenty-four grids do. -/
def shortest (significand : Nat) (exponent : Int) : Decimal :=
  (search significand exponent 24 (coarsestGrid significand exponent)).getD ⟨0, 0⟩

example : shortest 0x1999999999999a (-56) = ⟨1, -1⟩ := by decide
example : shortest 1 (-1074) = ⟨5, -324⟩ := by decide +kernel
example : shortest (2 ^ 53 - 1) 971 = ⟨17976931348623157, 292⟩ := by decide +kernel

end Decimal

end LoxLang
