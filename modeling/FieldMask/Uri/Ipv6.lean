import FieldMask.Text.Digits

/-!
# IPv6 addresses

An address is eight groups of 16 bits. It is written as hexadecimal numbers between colons; two
colons stand for the groups of zeros that are left out, and the last two groups can be written as
four decimal octets. The text of an address, after RFC 5952, leaves out the longest run of zeros.
-/

namespace FieldMask

namespace Ipv6

/-- What stands at a place of a written address, and whether a colon stands before it. -/
inductive Piece
  | group (value : Nat) (separated : Bool)
  /-- Two colons. -/
  | gap
  /-- The beginning of four decimal octets. -/
  | quad (separated : Bool)

/-- The value of hexadecimal digits. -/
def hexDigitsValue (digits : List Char) : Nat :=
  digits.foldl (fun n c => n * 16 + (hexValue? c).getD 0) 0

/-- The next piece of a written address and what remains, which for octets is the octets. -/
def readPiece (text : List Char) : Option (Piece × List Char) :=
  let (separated, text) := match text with
    | ':' :: rest => (true, rest)
    | rest => (false, rest)
  let digits := (text.takeWhile fun c => (hexValue? c).isSome).take 4
  match text.drop digits.length with
  | ':' :: rest =>
    if digits.isEmpty then some (.gap, rest)
    else some (.group (hexDigitsValue digits) separated, ':' :: rest)
  | rest =>
    if digits.isEmpty then none
    else if rest.head? = some '.' ∧ digits.length < 4 then some (.quad separated, text)
    else some (.group (hexDigitsValue digits) separated, rest)

/-- A decimal octet without needless zeros, and what remains. -/
def readOctet (text : List Char) : Option (Nat × List Char) :=
  let digits := match text with
    | '0' :: _ => ['0']
    | text => (text.takeWhile Char.isDigit).take 3
  if digits.isEmpty || 255 < digitsValue digits then none
  else some (digitsValue digits, text.drop digits.length)

/-- As many octets as given, with a full stop before each but the first, and what remains. -/
def readOctets : Nat → List Char → Option (List Nat × List Char)
  | 0, text => some ([], text)
  | n + 1, text => do
    let (octet, rest) ← readOctet text
    if n = 0 then return ([octet], rest)
    match rest with
    | '.' :: rest =>
      let (octets, rest) ← readOctets n rest
      return (octet :: octets, rest)
    | _ => none

/-- The groups of a written address, the place of the gap among them, and what remains. -/
abbrev Groups := List Nat × Option Nat × List Char

/-- Read on, at most as many pieces as given. -/
def readGroups (pieces : Nat) (groups : List Nat) (gap : Option Nat) (text : List Char) :
    Option Groups :=
  match pieces with
  | 0 => some (groups, gap, text)
  | pieces + 1 =>
    let fresh := groups.isEmpty || gap = some groups.length
    if groups.length = 8 then some (groups, gap, text)
    else match readPiece text with
      | none => some (groups, gap, text)
      | some (.group value separated, rest) =>
        if separated = fresh then none else readGroups pieces (groups ++ [value]) gap rest
      | some (.gap, rest) =>
        if gap.isSome then none else readGroups pieces groups (some groups.length) rest
      | some (.quad separated, rest) =>
        if 6 < groups.length ∨ separated = decide (gap = some groups.length) then none
        else match readOctets 4 rest with
          | some ([a, b, c, d], rest) =>
            some (groups ++ [a * 256 + b, c * 256 + d], gap, rest)
          | _ => none

/-- The eight groups that an address writes, and what remains. -/
def read? (text : List Char) : Option (List Nat × List Char) := do
  let (groups, gap, rest) ← readGroups 9 [] none text
  match gap with
  | none => if groups.length = 8 then some (groups, rest) else none
  | some place =>
    if groups.length = 8 then none
    else
      let zeros := List.replicate (8 - groups.length) 0
      some (groups.take place ++ zeros ++ groups.drop place, rest)

/-- The number of zeros at the front. -/
def leadingZeros (groups : List Nat) : Nat := (groups.takeWhile (· = 0)).length

/-- The place and length of the first longest run of zeros among groups, from a place on. -/
def longestZeros (place : Nat) : List Nat → Nat × Nat
  | [] => (place, 0)
  | g :: rest =>
    let later := longestZeros (place + 1) rest
    if later.2 ≤ leadingZeros (g :: rest) then (place, leadingZeros (g :: rest)) else later

/-- Groups in hexadecimal with colons between them. -/
def groupsText (groups : List Nat) : List Char := [':'].intercalate (groups.map (Nat.toDigits 16))

/-- The text of an address. One that stands for an IPv4 address ends in its octets. -/
def text (groups : List Nat) : List Char :=
  match groups with
  | [0, 0, 0, 0, 0, 0xFFFF, a, b] =>
    "::ffff:".toList
      ++ ['.'].intercalate ([a / 256, a % 256, b / 256, b % 256].map (Nat.toDigits 10))
  | groups =>
    let (place, length) := longestZeros 0 groups
    if length ≤ 1 then groupsText groups
    else groupsText (groups.take place) ++ [':', ':'] ++ groupsText (groups.drop (place + length))

end Ipv6

end FieldMask
