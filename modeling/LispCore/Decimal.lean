import LispCore.Binary64

/-!
# Doubles in decimal

A finite double stands for every real number that rounds to it. `shortest` picks, on the coarsest grid of
powers of ten that has a point among those reals, the point nearest to the number; of two that are equally
near, the larger. All comparisons are between natural numbers.

In the text of a double, whole numbers are written exactly, with one zero place; other numbers with the fewest
digits that read back. There is never an exponent.
-/

namespace LispCore

namespace Decimal

/-- The reals that round to a number, between `low / 4` and `high / 4` units of `2 ^ (scale - 1075)`, with
the number itself at `mid / 4`. The ends belong to it when `closed`. -/
structure Rounding where
  low : Nat
  mid : Nat
  high : Nat
  closed : Bool

/-- The interval of a nonzero finite number. Below a power of two the numbers lie twice as close. -/
def Rounding.of (x : Binary64) : Rounding :=
  let m := x.significand
  { low := if x.fraction = 0 ∧ 1 < x.exponent then 4 * m - 1 else 4 * m - 2
    mid := 4 * m
    high := 4 * m + 2
    closed := m % 2 == 0 }

/-- Whether the point `p` lies in the interval, once both are brought to common units. -/
def Rounding.holds (r : Rounding) (unit p : Nat) : Bool :=
  if r.closed then r.low * unit ≤ p && p ≤ r.high * unit
  else r.low * unit < p && p < r.high * unit

/-- The multiple of `10 ^ grid` that stands for the number, as its count, if one reads back. The number is
compared in units of `2 ^ (scale - 1077)`. -/
def onGrid (r : Rounding) (scale : Nat) (grid : Int) : Option Nat :=
  let step := Nat.pow 10 grid.toNat * Nat.pow 2 (1077 - scale)
  let unit := Nat.pow 10 (-grid).toNat * Nat.pow 2 (scale - 1077)
  let below := r.mid * unit / step
  let above := below + 1
  match r.holds unit (below * step), r.holds unit (above * step) with
  | true, true =>
    if r.mid * unit - below * step < above * step - r.mid * unit then some below else some above
  | true, false => some below
  | false, true => some above
  | false, false => none

/-- Digits `c` and a power `g` of ten with `c · 10 ^ g` the shortest decimal that reads back as `x`. -/
def shortest (x : Binary64) : Nat × Int :=
  let grids := (List.range 640).map fun i : Nat => (308 : Int) - (i : Int)
  let found := grids.findSome? fun g => (onGrid (.of x) x.scale g).map fun c => (c, g)
  found.getD (0, 0)

/-- `c · 10 ^ g` written out in full, without an exponent. -/
def positional (c : Nat) (g : Int) : String :=
  let digits := (Nat.toDigits 10 c)
  let places := (-g).toNat
  if places = 0 then String.ofList (digits ++ List.replicate g.toNat '0')
  else
    let padded := List.replicate (places + 1 - digits.length) '0' ++ digits
    let whole := padded.length - places
    String.ofList (padded.take whole ++ '.' :: padded.drop whole)

end Decimal

/-! ### Text -/

/-- How a double is displayed. -/
def Binary64.text (x : Binary64) : String :=
  let sign := if x.isNegative then "-" else ""
  if x.isNaN then "NaN"
  else if !x.isFinite then sign ++ "inf"
  else
    match x.natAbs? with
    | some n => sign ++ toString n ++ ".0"
    | none =>
      let (c, g) := Decimal.shortest x
      sign ++ Decimal.positional c g

/-- The sixteen hexadecimal digits of the bits. -/
def Binary64.hex (x : Binary64) : String :=
  let digits := Nat.toDigits 16 x.bits.toNat
  String.ofList (List.replicate (16 - digits.length) '0' ++ digits)

end LispCore
