import FieldMask.Text.CharRanges

/-!
# Blanks

The blanks are the 25 characters with the Unicode property White_Space. Masks and numbers in strings
are read without the blanks around them.
-/

namespace FieldMask

/-- The characters with the property White_Space. -/
def blankRanges : List (Nat × Nat) := [
  (9, 13), (32, 32), (133, 133), (160, 160), (5760, 5760), (8192, 8202), (8232, 8233),
  (8239, 8239), (8287, 8287), (12288, 12288)]

/-- Whether a character is a blank. -/
def isBlankChar (c : Char) : Bool := inRanges blankRanges c.toNat

/-- The text without the blanks at its front. -/
def trimStart (text : List Char) : List Char := text.dropWhile isBlankChar

/-- The text without the blanks at its end. -/
def trimEnd (text : List Char) : List Char := (text.reverse.dropWhile isBlankChar).reverse

/-- The text without the blanks around it. -/
def trim (text : List Char) : List Char := trimEnd (trimStart text)

end FieldMask
