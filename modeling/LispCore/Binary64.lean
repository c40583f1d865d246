/-!
# Double precision numbers

A floating point number of the language is its sixty-four bits: sign, eleven bits of exponent, fifty-two
bits of fraction. Values are told apart by their bits; source data is compared as numbers
(`Binary64.numericEq`), where the two zeros are equal and no number equals a not-a-number.
-/

namespace LispCore

/-- A double precision number, given by its bits. -/
structure Binary64 where
  bits : UInt64
deriving DecidableEq, Inhabited

namespace Binary64

/-- Whether the sign bit is set. -/
def isNegative (x : Binary64) : Bool :=
  Nat.pow 2 63 ≤ x.bits.toNat

/-- The eleven bits of the exponent. -/
def exponent (x : Binary64) : Nat :=
  x.bits.toNat / Nat.pow 2 52 % Nat.pow 2 11

/-- The fifty-two bits of the fraction. -/
def fraction (x : Binary64) : Nat :=
  x.bits.toNat % Nat.pow 2 52

/-- Whether the number is neither infinite nor a not-a-number. -/
def isFinite (x : Binary64) : Bool :=
  x.exponent != 2047

def isNaN (x : Binary64) : Bool :=
  x.exponent == 2047 && x.fraction != 0

def isZero (x : Binary64) : Bool :=
  x.exponent == 0 && x.fraction == 0

/-- The significand `m` of a finite number `± m · 2 ^ (scale - 1075)`. -/
def significand (x : Binary64) : Nat :=
  if x.exponent = 0 then x.fraction else x.fraction + Nat.pow 2 52

/-- The biased power of two of a finite number: its magnitude is `significand · 2 ^ (scale - 1075)`. -/
def scale (x : Binary64) : Nat :=
  max x.exponent 1

/-- The whole number that a finite number's magnitude is, if it is one. -/
def natAbs? (x : Binary64) : Option Nat :=
  if 1075 ≤ x.scale then some (x.significand * Nat.pow 2 (x.scale - 1075))
  else if x.significand % Nat.pow 2 (1075 - x.scale) = 0 then some (x.significand / Nat.pow 2 (1075 - x.scale))
  else none

/-- Equality as numbers: `0 = -0`, and a not-a-number equals nothing. -/
def numericEq (x y : Binary64) : Bool :=
  !x.isNaN && !y.isNaN && (x.bits == y.bits || (x.isZero && y.isZero))

end Binary64

end LispCore
