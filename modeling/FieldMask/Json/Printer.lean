import FieldMask.Json

/-!
# Text of JSON values

`Json.compact` writes a value without blanks, `Json.pretty` one item or member to a line, indented
by two spaces for each level; an empty array or object is `[]` or `{}` in both. Strings escape
quotes, backslashes and the controls below U+0020, and nothing else.
-/

namespace FieldMask

namespace Json

/-- A hexadecimal digit, in lower case. -/
def hexDigit (n : Nat) : Char := (Nat.toDigits 16 n).headD '0'

/-- How a character is written inside a string. -/
def escapeChar (c : Char) : List Char :=
  if c = '"' then ['\\', '"']
  else if c = '\\' then ['\\', '\\']
  else if c.val < 0x20 then
    match c with
    | '\x08' => ['\\', 'b']
    | '\x0c' => ['\\', 'f']
    | '\n' => ['\\', 'n']
    | '\r' => ['\\', 'r']
    | '\t' => ['\\', 't']
    | c => ['\\', 'u', '0', '0', hexDigit (c.toNat / 16), hexDigit (c.toNat % 16)]
  else [c]

/-- A string in quotes. -/
def quote (s : String) : String :=
  "\"" ++ String.ofList (s.toList.flatMap escapeChar) ++ "\""

mutual

/-- The text of a value without blanks. -/
def compact : Json → String
  | .null => "null"
  | .bool true => "true"
  | .bool false => "false"
  | .num n => n.text
  | .str s => quote s
  | .arr items => "[" ++ ",".intercalate (compactItems items) ++ "]"
  | .obj members => "\x7b" ++ ",".intercalate (compactMembers members) ++ "\x7d"

/-- The texts of items. -/
def compactItems : List Json → List String
  | [] => []
  | x :: xs => x.compact :: compactItems xs

/-- The texts of members, each a key and a value. -/
def compactMembers : Members → List String
  | [] => []
  | (k, x) :: xs => (quote k ++ ":" ++ x.compact) :: compactMembers xs

end

/-- Lines between brackets, each on its own line and indented one level more than the brackets. -/
def block (level : Nat) (opening closing : String) : List String → String
  | [] => opening ++ closing
  | lines =>
    let newline := "\n" ++ "".pushn ' ' (2 * level)
    opening ++ newline ++ "  " ++ ("," ++ newline ++ "  ").intercalate lines ++ newline ++ closing

mutual

/-- The indented text of a value that stands at a level. -/
def prettyAt (level : Nat) : Json → String
  | .arr items => block level "[" "]" (prettyItems (level + 1) items)
  | .obj members => block level "\x7b" "\x7d" (prettyMembers (level + 1) members)
  | v => v.compact

/-- The indented texts of items. -/
def prettyItems (level : Nat) : List Json → List String
  | [] => []
  | x :: xs => prettyAt level x :: prettyItems level xs

/-- The indented texts of members. -/
def prettyMembers (level : Nat) : Members → List String
  | [] => []
  | (k, x) :: xs => (quote k ++ ": " ++ prettyAt level x) :: prettyMembers level xs

end

/-- The indented text of a value. -/
def pretty (v : Json) : String := prettyAt 0 v

end Json

end FieldMask
