import FieldMask.Text.Bytes

/-!
# Syntax errors of JSON text

A syntax error is a cause and a position. Positions count bytes: the column is the number of bytes
from the last line feed up to the position, and the line is one more than the number of line feeds
before it. An error about a character that was only looked at counts its first byte as well.
-/

namespace FieldMask

/-- Why a text is not JSON. -/
inductive SyntaxCause
  | eofInValue | eofInList | eofInObject | eofInString
  | expectedColon | expectedListCommaOrEnd | expectedObjectCommaOrEnd
  | expectedIdentifier | expectedValue
  | invalidEscape | invalidNumber | numberOutOfRange
  | controlCharacter | keyNotString
  | loneSurrogate | endOfHexEscape
  | trailingComma | trailingCharacters
  | recursionLimit
  deriving DecidableEq

/-- The wording of a cause. -/
def SyntaxCause.message : SyntaxCause → String
  | .eofInValue => "EOF while parsing a value"
  | .eofInList => "EOF while parsing a list"
  | .eofInObject => "EOF while parsing an object"
  | .eofInString => "EOF while parsing a string"
  | .expectedColon => "expected \x60:\x60"
  | .expectedListCommaOrEnd => "expected \x60,\x60 or \x60]\x60"
  | .expectedObjectCommaOrEnd => "expected \x60,\x60 or \x60\x7d\x60"
  | .expectedIdentifier => "expected ident"
  | .expectedValue => "expected value"
  | .invalidEscape => "invalid escape"
  | .invalidNumber => "invalid number"
  | .numberOutOfRange => "number out of range"
  | .controlCharacter => "control character (\\u0000-\\u001F) found while parsing a string"
  | .keyNotString => "key must be a string"
  | .loneSurrogate => "lone leading surrogate in hex escape"
  | .endOfHexEscape => "unexpected end of hex escape"
  | .trailingComma => "trailing comma"
  | .trailingCharacters => "trailing characters"
  | .recursionLimit => "recursion limit exceeded"

/-- A cause at a line and a column. -/
structure SyntaxError where
  cause : SyntaxCause
  line : Nat
  column : Nat
  deriving DecidableEq

/-- The wording of a syntax error. -/
def SyntaxError.message (e : SyntaxError) : String :=
  e.cause.message ++ " at line " ++ toString e.line ++ " column " ++ toString e.column

/-- The line and column after the first `bytes` bytes, counted on from a line and column. -/
def positionFrom (line column : Nat) : List Char → (bytes : Nat) → Nat × Nat
  | [], bytes => (line, column + bytes)
  | c :: rest, bytes =>
    if bytes = 0 then (line, column)
    else if c = '\n' then positionFrom (line + 1) 0 rest (bytes - 1)
    else if bytes ≤ c.utf8Size then (line, column + bytes)
    else positionFrom line (column + c.utf8Size) rest (bytes - c.utf8Size)

/--
A cause found with a rest of the text left unread, and how many bytes of that rest count as seen.
-/
structure SyntaxFault where
  cause : SyntaxCause
  rest : List Char
  seen : Nat

/-- The error at the position of a fault in a text. -/
def SyntaxFault.locate (text : List Char) (fault : SyntaxFault) : SyntaxError :=
  let total := utf8Length text
  let position := positionFrom 1 0 text (min total (total - utf8Length fault.rest + fault.seen))
  ⟨fault.cause, position.1, position.2⟩

end FieldMask
