import FieldMask.Mask
import FieldMask.Mask.Token
import FieldMask.Text.Blank

/-!
# Reading masks

The tokens of a mask text are read one by one. The siblings of the level that is open are collected
in order; a name that is already among them replaces the earlier selector where it stands. An
opening brace suspends the level, with the place of the name whose children follow, and the closing
brace takes it up again.

Braces around the whole text are optional, and blanks around it do not count.
-/

namespace FieldMask

/-- Why a text is not a mask. Offsets count the bytes of the text. -/
inductive MaskParseError
  | unexpectedOpeningBracket (offset : Nat)
  | unexpectedClosingBracket (offset : Nat)
  | unexpectedComma (offset : Nat)
  | missingClosingBracket
  deriving DecidableEq

/-- The wording of the error. -/
def MaskParseError.message : MaskParseError → String
  | .unexpectedOpeningBracket offset => "unexpected opening bracket at offset " ++ toString offset
  | .unexpectedClosingBracket offset => "unexpected closing bracket at offset " ++ toString offset
  | .unexpectedComma offset => "unexpected comma at offset " ++ toString offset
  | .missingClosingBracket => "missing closing bracket"

namespace Selector

/--
Add a selector to its siblings: one of the same name is replaced where it stands. Also its place.
-/
def insert (s : Selector) : List Selector → List Selector × Nat
  | [] => ([s], 0)
  | t :: rest =>
    if t.name = s.name then (s :: rest, 0)
    else
      let (rest, index) := insert s rest
      (t :: rest, index + 1)

end Selector

namespace Mask

/-- The token before the one that is read next. -/
inductive Previous
  | start
  | opened
  | closed
  | comma
  /-- A name, whose selector stands at an index of the open level. -/
  | name (index : Nat)
  deriving DecidableEq

/-- A level that waits for a nested one to close: its siblings and the place of the nested name. -/
structure Suspended where
  siblings : List Selector
  index : Nat
  deriving DecidableEq

/-- The state between two tokens. -/
structure ParseState where
  /-- The siblings of the open level. -/
  current : List Selector
  /-- The levels around it, the innermost first. -/
  outer : List Suspended
  previous : Previous
  deriving DecidableEq

/-- The state before the first token. -/
def ParseState.initial : ParseState := ⟨[], [], .start⟩

/-- Open a level below the name just read, unless that is the wildcard. -/
def ParseState.opening (st : ParseState) (offset : Nat) : Except MaskParseError ParseState :=
  match st.previous with
  | .name index =>
    if (st.current[index]?).any Selector.isWildcard then .error (.unexpectedOpeningBracket offset)
    else .ok ⟨[], ⟨st.current, index⟩ :: st.outer, .opened⟩
  | _ => .error (.unexpectedOpeningBracket offset)

/-- Close the open level: its siblings become the children of the name that it was opened below. -/
def ParseState.closing (st : ParseState) (offset : Nat) : Except MaskParseError ParseState :=
  match st.outer with
  | [] => .error (.unexpectedClosingBracket offset)
  | level :: outer =>
    .ok ⟨level.siblings.modify level.index (fun s => .nested s.name st.current), outer, .closed⟩

/-- The state after one more token. -/
def ParseState.step (st : ParseState) (lexeme : Lexeme) : Except MaskParseError ParseState :=
  match lexeme.token with
  | .openBrace => st.opening lexeme.offset
  | .closeBrace => st.closing lexeme.offset
  | .comma =>
    match st.previous with
    | .start | .opened | .comma => .error (.unexpectedComma lexeme.offset)
    | _ => .ok { st with previous := .comma }
  | .name text =>
    let (current, index) := (Selector.ofName text).insert st.current
    .ok { st with current, previous := .name index }

/-- The text between optional outer braces, and the offset at which it begins. -/
def body (text : List Char) : Except MaskParseError (Nat × List Char) :=
  let leading := utf8Length (text.takeWhile isBlankChar)
  match trim text with
  | '\x7b' :: inner =>
    if inner.getLast? = some '\x7d' then .ok (leading + 1, inner.dropLast)
    else .error .missingClosingBracket
  | chars => .ok (leading, chars)

/-- The mask that a text writes. -/
def parse (text : String) : Except MaskParseError Mask := do
  let (offset, chars) ← body text.toList
  let st ← (Lexeme.ofText offset chars).foldlM ParseState.step .initial
  if st.outer.isEmpty then return ⟨st.current⟩ else throw .missingClosingBracket

end Mask

end FieldMask
