/-!
# Finite binary64 numbers, exactly

A `Binary64` is a sign and a magnitude `mantissa * 2 ^ exponent`, held in the one form that the IEEE
754 format gives it. Arithmetic is done on exact ratios of natural numbers and rounded once, to the
nearest number with ties to the even mantissa, so every result is the one the standard prescribes.
Infinities and NaN are not numbers here: an operation that would leave the finite range answers
`none`.
-/

namespace FieldMask

namespace Binary64

/--
The mantissas and exponents of the format: a mantissa is below the 53rd power of two, and at least
the 52nd unless the exponent is the least one.
-/
def Canonical (mantissa : Nat) (exponent : Int) : Prop :=
  mantissa < 0x20000000000000 ∧ -1074 ≤ exponent ∧ exponent ≤ 971 ∧
    (0x10000000000000 ≤ mantissa ∨ exponent = -1074)

instance (mantissa : Nat) (exponent : Int) : Decidable (Canonical mantissa exponent) := by
  unfold Canonical; infer_instance

end Binary64

/-- A finite binary64 number. Zero has both signs. -/
structure Binary64 where
  /-- Whether the sign is minus. -/
  negative : Bool
  /-- The mantissa, as a natural number. -/
  mantissa : Nat
  /-- The power of two that the mantissa is scaled by. -/
  exponent : Int
  /-- The parts are in the form of the format. -/
  canonical : Binary64.Canonical mantissa exponent
  deriving DecidableEq

namespace Binary64

/-- Zero with a sign. -/
def zero (negative : Bool) : Binary64 := ⟨negative, 0, -1074, by decide⟩

/-- The number with the given parts, if the format has it. -/
def ofParts? (negative : Bool) (mantissa : Nat) (exponent : Int) : Option Binary64 :=
  if h : Canonical mantissa exponent then some ⟨negative, mantissa, exponent, h⟩ else none

/-- The same number with the other sign. -/
def neg (x : Binary64) : Binary64 := { x with negative := !x.negative }

/-- Whether the number is a zero. -/
def isZero (x : Binary64) : Bool := x.mantissa == 0

/-- `num / den` rounded to an integer, a half going to the even one. -/
def roundHalfEven (num den : Nat) : Nat :=
  let rest := num % den
  if 2 * rest < den ∨ (2 * rest = den ∧ num / den % 2 = 0) then num / den else num / den + 1

/-- A ratio equal to `num / (den * 2 ^ exponent)`. -/
def unscale (num den : Nat) (exponent : Int) : Nat × Nat :=
  if 0 ≤ exponent then (num, den <<< exponent.toNat) else (num <<< (-exponent).toNat, den)

/-- The least exponent at which the integer part of the ratio has at most 53 bits. -/
def exponentFor (num den : Nat) : Int :=
  let guess : Int := (num.log2 : Int) - den.log2 - 52
  let scaled := unscale num den guess
  max (-1074) (if scaled.1 / scaled.2 < 0x10000000000000 then guess - 1 else guess)

/-- The number nearest to `num / den`; `none` beyond the finite range. -/
def ofRatio (negative : Bool) (num den : Nat) : Option Binary64 :=
  if num = 0 then some (zero negative)
  else
    let exponent := exponentFor num den
    let scaled := unscale num den exponent
    let mantissa := roundHalfEven scaled.1 scaled.2
    if mantissa = 0x20000000000000 then ofParts? negative 0x10000000000000 (exponent + 1)
    else ofParts? negative mantissa exponent

/-- The magnitude as a ratio of natural numbers. -/
def ratio (x : Binary64) : Nat × Nat :=
  if 0 ≤ x.exponent then (x.mantissa <<< x.exponent.toNat, 1)
  else (x.mantissa, 1 <<< (-x.exponent).toNat)

/-- The rounded product. -/
def mul? (x y : Binary64) : Option Binary64 :=
  ofRatio (x.negative != y.negative) (x.ratio.1 * y.ratio.1) (x.ratio.2 * y.ratio.2)

/-- The rounded quotient by a number that is not zero. -/
def div? (x y : Binary64) : Option Binary64 :=
  ofRatio (x.negative != y.negative) (x.ratio.1 * y.ratio.2) (x.ratio.2 * y.ratio.1)

/-- The integer part: the number with its fraction cut off, toward zero. -/
def trunc (x : Binary64) : Int :=
  let whole : Int := x.ratio.1 / x.ratio.2
  if x.negative then -whole else whole

/-- Whether the number is an integer. -/
def isInteger (x : Binary64) : Bool := x.ratio.1 % x.ratio.2 == 0

/-- Whether the number is equal to an integer. -/
def equalsInt (x : Binary64) (z : Int) : Bool := x.isInteger && x.trunc == z

/-- Equality of values: both zeros are equal. -/
def equalsValue (x y : Binary64) : Bool := (x.isZero && y.isZero) || x == y

/--
The number nearest to `significand * 10 ^ exponent`; `none` beyond the finite range. The position of
the first digit settles magnitudes far out of the range without computing the power.
-/
def ofDecimal (negative : Bool) (significand : Nat) (exponent : Int) : Option Binary64 :=
  let first : Int := (Nat.toDigits 10 significand).length + exponent
  if significand = 0 || first < -400 then some (zero negative)
  else if 400 < first then none
  else if 0 ≤ exponent then ofRatio negative (significand * Nat.pow 10 exponent.toNat) 1
  else ofRatio negative significand (Nat.pow 10 (-exponent).toNat)

/-- The number nearest to a power of ten, `none` beyond `10 ^ 308`. -/
def powerOfTen (exponent : Nat) : Option Binary64 := ofRatio false (Nat.pow 10 exponent) 1

/--
A magnitude scaled by a power of ten in binary64 steps: one rounded product or quotient with the
rounded power, after quotients by `10 ^ 308` while the power is below that. The result can differ
from the nearest number in its last bit.
-/
def scaleByTen (x : Binary64) (exponent : Int) : Option Binary64 :=
  if exponent.natAbs ≤ 308 then do
    let power ← powerOfTen exponent.natAbs
    if 0 ≤ exponent then x.mul? power else x.div? power
  else if x.isZero then some x
  else if 0 ≤ exponent then none
  else do scaleByTen (← x.div? (← powerOfTen 308)) (exponent + 308)
termination_by exponent.natAbs
decreasing_by omega

end Binary64

end FieldMask
