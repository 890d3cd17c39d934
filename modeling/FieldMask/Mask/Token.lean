import FieldMask.Text.Bytes
import FieldMask.Text.Word

/-!
# Tokens of mask texts

The tokens of a mask text are braces, commas and names, a name being a maximal run of name
characters. Every other character separates tokens and is skipped. A token carries the offset of its
first byte.
-/

namespace FieldMask

/-- What a token says. -/
inductive Token
  | openBrace
  | closeBrace
  | comma
  | name (text : String)
  deriving DecidableEq

/-- A token and the offset at which it begins. -/
structure Lexeme where
  token : Token
  offset : Nat
  deriving DecidableEq

namespace Lexeme

/-- The tokens of a text whose first byte has the given offset. -/
def ofText (offset : Nat) : List Char → List Lexeme
  | [] => []
  | c :: rest =>
    if isNameChar c then
      let run := c :: rest.takeWhile isNameChar
      ⟨.name (String.ofList run), offset⟩
        :: ofText (offset + utf8Length run) (rest.dropWhile isNameChar)
    else
      let after := ofText (offset + c.utf8Size) rest
      if c = '\x7b' then ⟨.openBrace, offset⟩ :: after
      else if c = '\x7d' then ⟨.closeBrace, offset⟩ :: after
      else if c = ',' then ⟨.comma, offset⟩ :: after
      else after
termination_by text => text.length
decreasing_by
  · have := (List.dropWhile_sublist isNameChar (l := rest)).length_le
    simp only [List.length_cons]
    omega
  · simp

end Lexeme

end FieldMask
