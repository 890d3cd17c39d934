import FieldMask.Json
import FieldMask.Text.Digits

/-!
# JSON pointers

A place in a value is a list of segments: member names and item indices. Its text, after RFC 6901,
writes every segment behind a slash, with `~` as `~0` and `/` as `~1`, and messages show the root as
a single slash. `Json.at?` follows a place into a value. The index of an item may be written with a
plus sign or with leading zeros, which RFC 6901 does not have.
-/

namespace FieldMask

/-- A place in a JSON value. -/
structure Pointer where
  segments : List String
  deriving DecidableEq

namespace Pointer

/-- The place of the whole value. -/
def root : Pointer := ⟨[]⟩

/-- The place of a member of the value at a place. -/
def child (p : Pointer) (name : String) : Pointer := ⟨p.segments ++ [name]⟩

/-- The place of an item of the array at a place. -/
def item (p : Pointer) (index : Nat) : Pointer := p.child (Number.intText index)

/-- How a character of a segment is written. -/
def escapeChar (c : Char) : List Char :=
  if c = '~' then ['~', '0'] else if c = '/' then ['~', '1'] else [c]

/-- The text of a segment. -/
def escape (segment : String) : String := String.ofList (segment.toList.flatMap escapeChar)

/-- A text with a segment added behind a slash. -/
def join (text segment : String) : String := text ++ "/" ++ escape segment

/-- The text of a place, empty for the root. -/
def text (p : Pointer) : String := p.segments.foldl join ""

/-- The text of a place in messages, a slash for the root. -/
def shown (p : Pointer) : String := if p.segments.isEmpty then "/" else p.text

end Pointer

/-- The index that decimal digits write, after an optional plus sign, if 64 bits hold it. -/
def indexOfText? (text : String) : Option Nat :=
  let digits := match text.toList with
    | '+' :: rest => rest
    | chars => chars
  (natural? digits).filter (· < 0x10000000000000000)

namespace Json

/-- The member or item of a value under a segment. -/
def step? (v : Json) (segment : String) : Option Json :=
  match v with
  | .obj members => members.lookup segment
  | .arr items => (indexOfText? segment).bind (items[·]?)
  | _ => none

/-- The value at a place. -/
def at? (v : Json) (p : Pointer) : Option Json := p.segments.foldlM step? v

end Json

end FieldMask
