import FieldMask.Model.Field
import FieldMask.Text.Blank
import FieldMask.Text.Digits

/-!
# Coercing values to kinds

A value of a scalar field is brought into the form of its kind: numbers and booleans become strings,
strings become numbers if they write one, floats lose their fraction where an integer is wanted, and
every value is true or false. A value that has no such form is refused.
-/

namespace FieldMask

/-- What a value is expected to be. -/
inductive Expectation
  | string | integer | number | dateString | object | array
  deriving DecidableEq

/-- The wording of an expectation. -/
def Expectation.description : Expectation → String
  | .string => "string"
  | .integer => "integer"
  | .number => "number"
  | .dateString => "date string"
  | .object => "object"
  | .array => "array"

namespace Coercion

/-- The integer that a text writes: an optional sign and decimal digits. -/
def integerOfText? (text : List Char) : Option Number :=
  let signed := splitSign text
  match natural? signed.2 with
  | some n => Number.ofInt? (if signed.1 then -n else n)
  | none => none

/-- The power of ten that an exponent writes; nothing writes zero. -/
def exponentOfText? : List Char → Option Int
  | [] => some 0
  | c :: rest =>
    if c = 'e' || c = 'E' then
      let signed := splitSign rest
      (natural? signed.2).map fun n => if signed.1 then -(n : Int) else n
    else none

/--
The float that a text writes: an optional sign, digits with an optional point among or beside them,
and an optional exponent. The number nearest to the decimal is taken.
-/
def floatOfText? (text : List Char) : Option Binary64 :=
  let signed := splitSign text
  let whole := signed.2.takeWhile Char.isDigit
  let rest := signed.2.dropWhile Char.isDigit
  let (fraction, rest) := match rest with
    | '.' :: rest => (rest.takeWhile Char.isDigit, rest.dropWhile Char.isDigit)
    | rest => ([], rest)
  let digits := whole ++ fraction
  if digits.isEmpty then none
  else do
    let exponent ← exponentOfText? rest
    Binary64.ofDecimal signed.1 (digitsValue digits) (exponent - fraction.length)

/-- The integer that is left of a float without its fraction, if 64 bits with a sign hold it. -/
def truncate? (x : Binary64) : Option Number :=
  if x.trunc < 0x8000000000000000 then Number.ofInt? x.trunc else none

/-- Whether a value counts as true: it is not null, false, zero or empty. -/
def truth : Json → Bool
  | .null => false
  | .bool b => b
  | .num n => !n.isZero
  | .str s => !s.isEmpty
  | .arr items => !items.isEmpty
  | .obj members => !members.isEmpty

/-- A coerced value, or what is expected in place of one that has no such form. -/
def orExpected (expected : Expectation) : Option Json → Except Expectation Json
  | some v => .ok v
  | none => .error expected

end Coercion

open Coercion in
/-- The form that a value takes as one of a kind. -/
def Kind.coerce (kind : Kind) (value : Json) : Except Expectation Json :=
  match kind, value with
  | .string, .str s => .ok (.str s)
  | .string, .num n => .ok (.str n.text)
  | .string, .bool b => .ok (.str (if b then "true" else "false"))
  | .string, _ => .error .string
  | .integer, .num (.int z h) => .ok (.num (.int z h))
  | .integer, .num (.float x) => orExpected .integer ((truncate? x).map .num)
  | .integer, .str s => orExpected .integer ((integerOfText? (trim s.toList)).map .num)
  | .integer, _ => .error .integer
  | .number, .num n => .ok (.num n)
  | .number, .str s =>
    orExpected .number ((floatOfText? (trim s.toList)).map fun x => .num (.float x))
  | .number, _ => .error .number
  | .boolean, v => .ok (.bool (truth v))
  | .dateTime, .str s | .date, .str s => .ok (.str s)
  | .dateTime, _ | .date, _ => .error .dateString
  | .raw, v | .object, v => .ok v

end FieldMask
