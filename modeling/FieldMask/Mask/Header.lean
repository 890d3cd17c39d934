import FieldMask.Mask.Parser

/-!
# Masks of requests

A request carries its mask in a header, `X-Fields` unless another one is chosen. Header names are
compared without regard to the case of ASCII letters, the first header of the name counts, and a
blank one is no mask.
-/

namespace FieldMask

/-- How masks are taken from requests and applied. -/
structure MaskOptions where
  /-- The name of the header that carries the mask. -/
  header : String := "X-Fields"
  /-- Whether selected members that are missing are left out. -/
  skipMissing : Bool := false

/-- Whether two header names are the same but for the case of ASCII letters. -/
def sameHeader (a b : String) : Bool := a.toList.map Char.toLower == b.toList.map Char.toLower

/-- The mask that the headers carry, if any. -/
def MaskOptions.maskOf (options : MaskOptions) (headers : List (String × String)) :
    Except MaskParseError (Option Mask) :=
  match headers.find? (fun h => sameHeader h.1 options.header) with
  | some (_, text) =>
    if (trim text.toList).isEmpty then .ok none else do return some (← Mask.parse text)
  | none => .ok none

/-- The description of the header as an OpenAPI 2 parameter. -/
def MaskOptions.parameter (options : MaskOptions) : Json :=
  .obj [("name", .str options.header), ("in", .str "header"), ("type", .str "string"),
    ("format", .str "mask"), ("description", .str "An optional fields mask")]

end FieldMask
