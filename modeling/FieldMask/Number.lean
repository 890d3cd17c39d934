import FieldMask.Number.Shortest

/-!
# Numbers of JSON values

A number is an exact integer of at most 64 bits, signed or unsigned, or a binary64 number. The
integer `5` and the float `5.0` are different numbers with different texts; `equalsValue` compares
by value instead.
-/

namespace FieldMask

/-- A number of a JSON value. -/
inductive Number
  /-- An integer that a signed or an unsigned 64-bit word holds. -/
  | int (value : Int) (bounded : -0x8000000000000000 ≤ value ∧ value < 0x10000000000000000)
  /-- A binary64 number. -/
  | float (value : Binary64)
  deriving DecidableEq

namespace Number

/--
Floats are written positionally from `10 ^ -5` to below `10 ^ 16`, and with an exponent beyond.
-/
def layout : FloatLayout := ⟨-5, 15⟩

/-- The integer as a number, if 64 bits hold it. -/
def ofInt? (z : Int) : Option Number :=
  if h : -0x8000000000000000 ≤ z ∧ z < 0x10000000000000000 then some (.int z h) else none

/-- The digits of an integer, after a minus sign if it is negative. -/
def intText (z : Int) : String :=
  let digits := Nat.toDigits 10 z.natAbs
  String.ofList (if z < 0 then '-' :: digits else digits)

/-- The text of a number: an integer has digits only, a float has a point or an exponent. -/
def text : Number → String
  | .int z _ => intText z
  | .float x => x.text layout

/-- Whether the number is zero. -/
def isZero : Number → Bool
  | .int z _ => z == 0
  | .float x => x.isZero

/-- Whether the number has no fraction. -/
def isInteger : Number → Bool
  | .int _ _ => true
  | .float x => x.isInteger

/-- Equality of values, across the two forms. -/
def equalsValue : Number → Number → Bool
  | .int a _, .int b _ => a == b
  | .int a _, .float y => y.equalsInt a
  | .float x, .int b _ => x.equalsInt b
  | .float x, .float y => x.equalsValue y

/-- Whether the number is the zero with a minus sign. -/
def isNegativeZero : Number → Bool
  | .int _ _ => false
  | .float x => x.isZero && x.negative

/-- Equality of values that tells the two zeros apart. -/
def equalsSigned (a b : Number) : Bool :=
  a.equalsValue b && a.isNegativeZero == b.isNegativeZero

/-- The largest count that a 64-bit word holds. -/
def largestCount : Nat := 0xFFFFFFFFFFFFFFFF

/-- The number without its fraction. -/
def whole : Number → Int
  | .int z _ => z
  | .float x => x.trunc

/-- The count nearest to a number, if the number has no fraction. -/
def nearestCount? (n : Number) : Option Nat :=
  if n.isInteger then some (min n.whole.toNat largestCount) else none

end Number

end FieldMask
