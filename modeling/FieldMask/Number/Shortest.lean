import FieldMask.Number.Binary64

/-!
# Shortest decimal digits

A binary64 number is written with the fewest decimal digits that still round to it, and among texts
of that length with the one nearest to it. The reals that round to `m * 2 ^ e` are an interval
around it, closed when `m` is even. For 1, 2, … 17 digits the two neighbours of the number on the
grid of that many digits are tested against the interval, in exact arithmetic; the first grid with a
hit gives the digits.
-/

namespace FieldMask

/--
Decimal digits `d₀.d₁d₂… * 10 ^ exponent`, the first digit not zero unless it is the only one.
-/
structure DecimalDigits where
  /-- The digits as characters, without trailing zeros. -/
  digits : List Char
  /-- The power of ten of the first digit. -/
  exponent : Int
  deriving DecidableEq

/-- Where positional notation of a float ends. -/
structure FloatLayout where
  /-- The least decimal exponent written positionally. -/
  least : Int
  /-- The greatest decimal exponent written positionally. -/
  greatest : Int

namespace Binary64

/-- A number and the ends of the interval that rounds to it, over one denominator. -/
structure Interval where
  low : Nat
  value : Nat
  high : Nat
  denominator : Nat
  /-- Whether the ends round to the number too. -/
  closed : Bool

/--
The interval of a number. Below a power of two the gap is half as wide, except at the least
exponent.
-/
def interval (x : Binary64) : Interval :=
  let narrow := x.mantissa == 0x10000000000000 && x.exponent != -1074
  let value := 4 * x.mantissa
  let low := if narrow then value - 1 else value - 2
  let up := if 2 ≤ x.exponent then 1 <<< (x.exponent - 2).toNat else 1
  let down := if 2 ≤ x.exponent then 1 else 1 <<< (2 - x.exponent).toNat
  ⟨low * up, value * up, (value + 2) * up, down, x.mantissa % 2 == 0⟩

/-- Whether `num / den` lies in the interval. -/
def Interval.contains (i : Interval) (num den : Nat) : Bool :=
  let point := num * i.denominator
  if i.closed then i.low * den ≤ point && point ≤ i.high * den
  else i.low * den < point && point < i.high * den

/-- The exponent of the first decimal digit of `num / den`, for a ratio that is not zero. -/
def decimalExponent (num den : Nat) : Int :=
  if den ≤ num then ((Nat.toDigits 10 (num / den)).length : Int) - 1
  else
    let k := (Nat.toDigits 10 (den / num)).length
    if den = num * Nat.pow 10 (k - 1) then 1 - (k : Int) else -(k : Int)

/-- The point `n` of the grid `10 ^ exponent`, as a ratio. -/
def gridPoint (n : Nat) (exponent : Int) : Nat × Nat :=
  if 0 ≤ exponent then (n * Nat.pow 10 exponent.toNat, 1) else (n, Nat.pow 10 (-exponent).toNat)

/--
The neighbour of the number on a decimal grid that rounds to it, the nearer of two, the even on a
tie.
-/
def onGrid? (i : Interval) (exponent : Int) : Option Nat :=
  let unit := gridPoint 1 exponent
  let below := i.value * unit.2 / (i.denominator * unit.1)
  let rest := i.value * unit.2 % (i.denominator * unit.1)
  let half := i.denominator * unit.1
  let admits (n : Nat) : Bool :=
    let p := gridPoint n exponent
    i.contains p.1 p.2
  match admits below, admits (below + 1) with
  | true, true =>
    if 2 * rest < half || (2 * rest == half && below % 2 == 0) then some below else some (below + 1)
  | true, false => some below
  | false, true => some (below + 1)
  | false, false => none

/-- Try grids of `count`, `count + 1`, … digits, at most `more` further ones. -/
def shortestFrom (i : Interval) (first : Int) (count : Nat) : Nat → Nat × Int
  | 0 => ((onGrid? i (first - count + 1)).getD 0, first - count + 1)
  | more + 1 =>
    match onGrid? i (first - count + 1) with
    | some n => (n, first - count + 1)
    | none => shortestFrom i first (count + 1) more

/-- The digits of a natural number scaled by a power of ten, without trailing zeros. -/
def DecimalDigits.ofScaled (n : Nat) (exponent : Int) : DecimalDigits :=
  let text := Nat.toDigits 10 n
  let kept := (text.reverse.dropWhile (· == '0')).reverse
  ⟨if kept.isEmpty then ['0'] else kept, exponent + text.length - 1⟩

/-- The fewest digits that round to the number, the nearest of those. -/
def shortest (x : Binary64) : DecimalDigits :=
  if x.isZero then ⟨['0'], 0⟩
  else
    let i := x.interval
    let found := shortestFrom i (decimalExponent i.value i.denominator) 1 16
    DecimalDigits.ofScaled found.1 found.2

end Binary64

namespace DecimalDigits

/-- Digits with a point after the first of them, when there are more. -/
def mantissaText : List Char → List Char
  | [] => []
  | [d] => [d]
  | d :: rest => d :: '.' :: rest

/--
The text of digits: positional with at least one place, or with an exponent that carries its sign.
-/
def text (layout : FloatLayout) (d : DecimalDigits) : List Char :=
  if layout.least ≤ d.exponent ∧ d.exponent ≤ layout.greatest then
    if d.exponent < 0 then
      '0' :: '.' :: (List.replicate (-d.exponent - 1).toNat '0' ++ d.digits)
    else
      let whole := d.exponent.toNat + 1
      let shown := d.digits.take whole
      let places := d.digits.drop whole
      shown ++ List.replicate (whole - shown.length) '0'
        ++ '.' :: (if places.isEmpty then ['0'] else places)
  else
    mantissaText d.digits ++ 'e' :: (if d.exponent < 0 then '-' else '+') ::
      Nat.toDigits 10 d.exponent.natAbs

end DecimalDigits

/--
The text of a binary64 number in a layout, a minus sign before negative ones, the zero included.
-/
def Binary64.text (layout : FloatLayout) (x : Binary64) : String :=
  let magnitude := x.shortest.text layout
  String.ofList (if x.negative then '-' :: magnitude else magnitude)

end FieldMask
