import FieldMask.Json
import FieldMask.Json.Syntax
import FieldMask.Text.Digits

/-!
# Reading JSON text

`Json.read` reads a whole text as one value, or says what is wrong and where. A number without
fraction and exponent that 64 bits hold is an exact integer, any other a float: the digits are
collected into a 64-bit significand as long as it holds them, and the significand is then scaled by
the power of ten that is left. At most `nestingLimit` containers may be open at once.

Every step answers with a rest of the text that is shorter than what it was given, which is why
reading ends.
-/

namespace FieldMask

namespace Json

/-- A value read from the front of a text, and what remains of the text. -/
structure Read (α : Type) (text : List Char) where
  value : α
  rest : List Char
  shorter : rest.length < text.length

/-- The outcome of a step of the reader. -/
abbrev Reading (α : Type) (text : List Char) := Except SyntaxFault (Read α text)

/-- How many containers may be open at once. -/
def nestingLimit : Nat := 127

/-- The blanks between tokens. -/
def isBlank (c : Char) : Bool := c == ' ' || c == '\n' || c == '\t' || c == '\r'

/-- The text without the blanks at its front. -/
def skipBlanks (text : List Char) : List Char := text.dropWhile isBlank

theorem length_dropWhile_le (p : Char → Bool) (text : List Char) :
    (text.dropWhile p).length ≤ text.length :=
  (List.dropWhile_sublist p).length_le

theorem length_skipBlanks_le (text : List Char) : (skipBlanks text).length ≤ text.length :=
  length_dropWhile_le ..

/-- A fault at the front of a rest, with nothing of it seen. -/
def faultAt {α : Type} (cause : SyntaxCause) (rest : List Char) : Except SyntaxFault α :=
  .error ⟨cause, rest, 0⟩

/-- A fault at the front of a rest, with the first byte of it seen. -/
def faultOn {α : Type} (cause : SyntaxCause) (rest : List Char) : Except SyntaxFault α :=
  .error ⟨cause, rest, 1⟩

/-! ### Strings -/

/-- The code unit that four hexadecimal digits write. -/
def readUnit (text : List Char) : Except SyntaxFault (Nat × List Char) :=
  match text with
  | a :: b :: c :: d :: rest =>
    match hexValue? a, hexValue? b, hexValue? c, hexValue? d with
    | some a, some b, some c, some d => .ok (((a * 16 + b) * 16 + c) * 16 + d, rest)
    | _, _, _, _ => .error ⟨.invalidEscape, text, 4⟩
  | _ => if utf8Length text < 4 then faultAt .eofInString [] else .error ⟨.invalidEscape, text, 4⟩

/-- The character that a leading surrogate and the trailing one after it write. -/
def readTrailingSurrogate (lead : Nat) : List Char → Except SyntaxFault (Char × List Char)
  | [] => faultAt .eofInString []
  | c :: rest =>
    if c ≠ '\\' then faultOn .endOfHexEscape (c :: rest)
    else match rest with
      | [] => faultAt .eofInString []
      | u :: rest =>
        if u ≠ 'u' then faultOn .endOfHexEscape (u :: rest)
        else do
          let (trail, rest) ← readUnit rest
          if trail < 0xDC00 || 0xDFFF < trail then faultAt .loneSurrogate rest
          else .ok (Char.ofNat ((lead - 0xD800) * 0x400 + (trail - 0xDC00) + 0x10000), rest)

/-- The character of an escape, read behind its backslash. -/
def readEscape : List Char → Except SyntaxFault (Char × List Char)
  | [] => faultAt .eofInString []
  | '"' :: rest => .ok ('"', rest)
  | '\\' :: rest => .ok ('\\', rest)
  | '/' :: rest => .ok ('/', rest)
  | 'b' :: rest => .ok ('\x08', rest)
  | 'f' :: rest => .ok ('\x0c', rest)
  | 'n' :: rest => .ok ('\n', rest)
  | 'r' :: rest => .ok ('\r', rest)
  | 't' :: rest => .ok ('\t', rest)
  | 'u' :: rest => do
    let (unit, rest) ← readUnit rest
    if 0xDC00 ≤ unit && unit ≤ 0xDFFF then faultAt .loneSurrogate rest
    else if 0xD800 ≤ unit && unit ≤ 0xDBFF then readTrailingSurrogate unit rest
    else .ok (Char.ofNat unit, rest)
  | rest => faultOn .invalidEscape rest

theorem length_readUnit {text rest : List Char} {n : Nat} (h : readUnit text = .ok (n, rest)) :
    rest.length < text.length := by
  unfold readUnit at h
  split at h
  · split at h
    · simp_all
      omega
    · simp_all
  · split at h <;> simp_all [faultAt]

theorem length_readTrailingSurrogate {lead : Nat} {text rest : List Char} {c : Char}
    (h : readTrailingSurrogate lead text = .ok (c, rest)) : rest.length < text.length := by
  unfold readTrailingSurrogate at h
  split at h
  · simp [faultAt] at h
  · split at h
    · simp [faultOn] at h
    · split at h
      · simp [faultAt] at h
      · split at h
        · simp [faultOn] at h
        · rename_i u rest' _
          cases hu : readUnit rest' with
          | error e => simp [hu, bind, Except.bind] at h
          | ok p =>
            have := length_readUnit hu
            simp only [hu, bind, Except.bind] at h
            split at h
            · simp [faultAt] at h
            · simp only [Except.ok.injEq, Prod.mk.injEq] at h
              simp only [List.length_cons, ← h.2]
              omega

theorem length_readEscape {text rest : List Char} {c : Char} (h : readEscape text = .ok (c, rest)) :
    rest.length < text.length := by
  unfold readEscape at h
  split at h
  case h_10 rest' =>
    cases hu : readUnit rest' with
    | error e => simp [hu, bind, Except.bind] at h
    | ok p =>
      have := length_readUnit hu
      simp only [hu, bind, Except.bind] at h
      split at h
      · simp [faultAt] at h
      · split at h
        · have := length_readTrailingSurrogate h
          simp only [List.length_cons]
          omega
        · simp only [Except.ok.injEq, Prod.mk.injEq] at h
          simp only [List.length_cons, ← h.2]
          omega
  all_goals simp_all [faultAt, faultOn]

/--
The characters up to the closing quote, behind the opening one; `done` holds those read so far,
reversed.
-/
def readString (done : List Char) (text : List Char) : Except SyntaxFault (String × List Char) :=
  match text with
  | [] => faultAt .eofInString []
  | '"' :: rest => .ok (String.ofList done.reverse, rest)
  | '\\' :: rest =>
    match _ : readEscape rest with
    | .error e => .error e
    | .ok (c, rest) => readString (c :: done) rest
  | c :: rest =>
    if c.val < 0x20 then faultOn .controlCharacter (c :: rest) else readString (c :: done) rest
termination_by text.length
decreasing_by
  · have := length_readEscape (by assumption)
    simp only [List.length_cons]
    omega
  · simp

theorem length_readString {done text rest : List Char} {s : String}
    (h : readString done text = .ok (s, rest)) : rest.length < text.length := by
  fun_induction readString done text with
  | case1 => simp [faultAt] at h
  | case2 done rest' =>
    simp only [Except.ok.injEq, Prod.mk.injEq] at h
    simp [h.2]
  | case3 => simp at h
  | case4 done rest' c rest'' he ih =>
    have := length_readEscape he
    have := ih h
    simp only [List.length_cons]
    omega
  | case5 => simp [faultOn] at h
  | case6 done c rest' _ _ _ ih =>
    have := ih h
    simp only [List.length_cons]
    omega

/-! ### Numbers -/

/--
Append digits to a significand as long as 64 bits hold it; also how many digits are left over.
-/
def collectDigits (significand : Nat) : List Char → Nat × Nat
  | [] => (significand, 0)
  | d :: rest =>
    if 0x10000000000000000 ≤ significand * 10 + digitValue d then (significand, rest.length + 1)
    else collectDigits (significand * 10 + digitValue d) rest

/-- The float of a significand and a power of ten. -/
def floatOf (negative : Bool) (significand : Nat) (exponent : Int) (rest : List Char) :
    Except SyntaxFault (Number × List Char) :=
  match (Binary64.ofRatio false significand 1).bind (·.scaleByTen exponent) with
  | some x => .ok (.float (if negative then x.neg else x), rest)
  | none => faultAt .numberOutOfRange rest

/--
The value of an exponent's digits; `none` as soon as it passes 31 bits, behind the digit that does
so.
-/
def scanExponent (value : Nat) : List Char → Option Nat × List Char
  | [] => (some value, [])
  | c :: rest =>
    if c.isDigit then
      if 0x80000000 ≤ value * 10 + digitValue c then (none, rest)
      else scanExponent (value * 10 + digitValue c) rest
    else (some value, c :: rest)

/-- A float whose exponent is read behind its letter. -/
def readExponent (negative : Bool) (significand : Nat) (exponent : Int) (text : List Char) :
    Except SyntaxFault (Number × List Char) :=
  let signed := splitSign text
  match signed.2 with
  | [] => faultAt .eofInValue []
  | c :: rest =>
    if !c.isDigit then faultOn .invalidNumber (c :: rest)
    else match scanExponent 0 (c :: rest) with
      | (some n, rest) =>
        floatOf negative significand (if signed.1 then exponent - n else exponent + n) rest
      | (none, rest) =>
        if significand ≠ 0 && !signed.1 then faultAt .numberOutOfRange rest
        else .ok (.float (.zero negative), rest.dropWhile Char.isDigit)

/-- A float whose fraction is read behind the point. -/
def readFraction (negative : Bool) (significand : Nat) (exponent : Int) (text : List Char) :
    Except SyntaxFault (Number × List Char) :=
  let digits := text.takeWhile Char.isDigit
  let rest := text.dropWhile Char.isDigit
  match digits with
  | [] => if rest.isEmpty then faultAt .eofInValue [] else faultOn .invalidNumber rest
  | _ =>
    let (significand, unused) := collectDigits significand digits
    let exponent := exponent - (digits.length - unused : Nat)
    match rest with
    | c :: rest' =>
      if c = 'e' || c = 'E' then readExponent negative significand exponent rest'
      else floatOf negative significand exponent rest
    | [] => floatOf negative significand exponent rest

/-- The integer of a sign and a magnitude: a float if it is minus zero or 64 bits do not hold it. -/
def integerOf (negative : Bool) (magnitude : Nat) (rest : List Char) :
    Except SyntaxFault (Number × List Char) :=
  if negative && magnitude == 0 then .ok (.float (.zero true), rest)
  else match Number.ofInt? (if negative then -magnitude else magnitude) with
    | some n => .ok (n, rest)
    | none => floatOf negative magnitude 0 rest

/-- What follows the integer digits of a number: a fraction, an exponent or nothing. -/
def readTail (negative : Bool) (significand unused : Nat) (text : List Char) :
    Except SyntaxFault (Number × List Char) :=
  let plain :=
    if unused = 0 then integerOf negative significand text
    else floatOf negative significand unused text
  match text with
  | c :: rest =>
    if c = '.' then readFraction negative significand unused rest
    else if c = 'e' || c = 'E' then readExponent negative significand unused rest
    else plain
  | [] => plain

/-- A number, read behind its minus sign if it has one. -/
def readNumber (negative : Bool) (text : List Char) : Except SyntaxFault (Number × List Char) :=
  match text with
  | [] => faultAt .eofInValue []
  | c :: rest =>
    if c = '0' then
      match rest with
      | d :: _ => if d.isDigit then faultOn .invalidNumber rest else readTail negative 0 0 rest
      | [] => readTail negative 0 0 rest
    else if c.isDigit then
      let (significand, unused) := collectDigits 0 (text.takeWhile Char.isDigit)
      readTail negative significand unused (text.dropWhile Char.isDigit)
    else faultOn .invalidNumber text

theorem length_floatOf {negative : Bool} {significand : Nat} {exponent : Int}
    {text rest : List Char} {n : Number}
    (h : floatOf negative significand exponent text = .ok (n, rest)) : rest = text := by
  unfold floatOf at h
  split at h <;> simp_all [faultAt]

theorem length_scanExponent (value : Nat) (text : List Char) :
    (scanExponent value text).2.length ≤ text.length := by
  fun_induction scanExponent value text with
  | case1 => simp
  | case2 => simp
  | case3 value c rest _ _ ih =>
    simp only [List.length_cons]
    omega
  | case4 => simp

theorem length_readExponent {negative : Bool} {significand : Nat} {exponent : Int}
    {text rest : List Char} {n : Number}
    (h : readExponent negative significand exponent text = .ok (n, rest)) :
    rest.length ≤ text.length := by
  have hs := length_splitSign_le text
  unfold readExponent at h
  simp only at h
  split at h
  · simp [faultAt] at h
  · rename_i c r hr
    have hlen := length_scanExponent 0 (c :: r)
    rw [hr] at hs
    split at h
    · simp [faultOn] at h
    · split at h
      · rename_i m r' he
        rw [he] at hlen
        have := length_floatOf h
        simp only at hlen
        subst this
        omega
      · rename_i r' he
        rw [he] at hlen
        simp only at hlen
        split at h
        · simp [faultAt] at h
        · simp only [Except.ok.injEq, Prod.mk.injEq] at h
          have := length_dropWhile_le Char.isDigit r'
          rw [h.2] at this
          omega

theorem length_readFraction {negative : Bool} {significand : Nat} {exponent : Int}
    {text rest : List Char} {n : Number}
    (h : readFraction negative significand exponent text = .ok (n, rest)) :
    rest.length ≤ text.length := by
  have hd := length_dropWhile_le Char.isDigit text
  unfold readFraction at h
  simp only at h
  split at h
  · split at h <;> simp [faultAt, faultOn] at h
  · split at h
    · rename_i c r hr
      split at h
      · have := length_readExponent h
        rw [hr] at hd
        simp only [List.length_cons] at hd
        omega
      · rw [length_floatOf h]
        exact hd
    · rw [length_floatOf h]
      exact hd

theorem length_integerOf {negative : Bool} {magnitude : Nat} {text rest : List Char} {n : Number}
    (h : integerOf negative magnitude text = .ok (n, rest)) : rest = text := by
  unfold integerOf at h
  split at h
  · simp_all
  · split at h
    · simp_all
    · exact length_floatOf h

theorem length_readTail {negative : Bool} {significand unused : Nat} {text rest : List Char}
    {n : Number} (h : readTail negative significand unused text = .ok (n, rest)) :
    rest.length ≤ text.length := by
  have plain : ∀ {r}, (if unused = 0 then integerOf negative significand text
      else floatOf negative significand unused text) = .ok (n, r) → r = text := by
    intro r hr
    split at hr
    · exact length_integerOf hr
    · exact length_floatOf hr
  unfold readTail at h
  simp only at h
  split at h
  · split at h
    · have := length_readFraction h
      simp only [List.length_cons]
      omega
    · split at h
      · have := length_readExponent h
        simp only [List.length_cons]
        omega
      · exact Nat.le_of_eq (congrArg List.length (plain h))
  · exact Nat.le_of_eq (congrArg List.length (plain h))

theorem length_readNumber {negative : Bool} {text rest : List Char} {n : Number}
    (h : readNumber negative text = .ok (n, rest)) : rest.length < text.length := by
  unfold readNumber at h
  split at h
  · simp [faultAt] at h
  · rename_i c r
    simp only at h
    split at h
    · have hr : readTail negative 0 0 r = .ok (n, rest) := by
        split at h
        · split at h
          · simp [faultOn] at h
          · exact h
        · exact h
      have := length_readTail hr
      simp only [List.length_cons]
      omega
    · split at h
      · rename_i hc
        have h1 := length_readTail h
        have h2 := length_dropWhile_le Char.isDigit r
        rw [List.dropWhile_cons_of_pos hc] at h1
        simp only [List.length_cons]
        omega
      · simp [faultOn] at h

/-! ### Values -/

/-- The rest of a text behind the letters of a word. -/
def readLetters : List Char → List Char → Except SyntaxFault (List Char)
  | [], rest => .ok rest
  | _ :: _, [] => faultAt .eofInValue []
  | w :: word, c :: rest =>
    if c = w then readLetters word rest else faultOn .expectedIdentifier (c :: rest)

theorem length_readLetters {word text rest : List Char} (h : readLetters word text = .ok rest) :
    rest.length ≤ text.length := by
  induction word generalizing text with
  | nil => simp_all [readLetters]
  | cons w word ih =>
    cases text with
    | nil => simp [readLetters, faultAt] at h
    | cons c text =>
      simp only [readLetters] at h
      split at h
      · have := ih h
        simp only [List.length_cons]
        omega
      · simp [faultOn] at h

/-- The rest of a text behind a colon. -/
def readColon (text : List Char) : Except SyntaxFault (List Char) :=
  match skipBlanks text with
  | [] => faultAt .eofInObject []
  | c :: rest => if c = ':' then .ok rest else faultOn .expectedColon (c :: rest)

theorem length_readColon {text rest : List Char} (h : readColon text = .ok rest) :
    rest.length < text.length := by
  have hs := length_skipBlanks_le text
  unfold readColon at h
  split at h
  · simp [faultAt] at h
  · rename_i c r hr
    rw [hr] at hs
    split at h
    · simp only [Except.ok.injEq] at h
      simp only [List.length_cons] at hs
      rw [← h]
      omega
    · simp [faultOn] at h

/-- A value read behind its first character, which is not that of a container. -/
def readScalar (c : Char) (rest : List Char) : Except SyntaxFault (Json × List Char) :=
  if c = '"' then do
    let (s, rest) ← readString [] rest
    return (.str s, rest)
  else if c = '-' then do
    let (n, rest) ← readNumber true rest
    return (.num n, rest)
  else if c.isDigit then do
    let (n, rest) ← readNumber false (c :: rest)
    return (.num n, rest)
  else if c = 'n' then return (.null, ← readLetters ['u', 'l', 'l'] rest)
  else if c = 't' then return (.bool true, ← readLetters ['r', 'u', 'e'] rest)
  else if c = 'f' then return (.bool false, ← readLetters ['a', 'l', 's', 'e'] rest)
  else faultOn .expectedValue (c :: rest)

theorem exists_of_bind_ok {α β : Type} {x : Except SyntaxFault α} {f : α → Except SyntaxFault β}
    {b : β} (h : x >>= f = .ok b) : ∃ a, x = .ok a ∧ f a = .ok b := by
  cases x with
  | error e => simp [bind, Except.bind] at h
  | ok a => exact ⟨a, rfl, h⟩

theorem length_readScalar {c : Char} {text rest : List Char} {v : Json}
    (h : readScalar c text = .ok (v, rest)) : rest.length ≤ text.length := by
  unfold readScalar at h
  split at h
  · obtain ⟨⟨s, r⟩, hs, h⟩ := exists_of_bind_ok h
    have := length_readString hs
    simp only [pure, Except.pure, Except.ok.injEq, Prod.mk.injEq] at h
    rw [← h.2]
    omega
  · split at h
    · obtain ⟨⟨s, r⟩, hs, h⟩ := exists_of_bind_ok h
      have := length_readNumber hs
      simp only [pure, Except.pure, Except.ok.injEq, Prod.mk.injEq] at h
      rw [← h.2]
      omega
    · split at h
      · obtain ⟨⟨s, r⟩, hs, h⟩ := exists_of_bind_ok h
        have := length_readNumber hs
        simp only [pure, Except.pure, Except.ok.injEq, Prod.mk.injEq, List.length_cons] at h this
        rw [← h.2]
        omega
      · repeat' split at h
        all_goals first
          | (obtain ⟨r, hs, h⟩ := exists_of_bind_ok h
             have := length_readLetters hs
             simp only [pure, Except.pure, Except.ok.injEq, Prod.mk.injEq] at h
             rw [← h.2]
             exact this)
          | simp [faultOn] at h

/-- The rest of the text at which the next item begins; `none` behind the closing bracket. -/
inductive Next (text : List Char)
  /-- The container ends. -/
  | done (rest : List Char) (shorter : rest.length < text.length)
  /-- An item or member begins. -/
  | more (rest : List Char) (within : rest.length ≤ text.length)

/-- Whether another item follows in an array. -/
def nextItem (first : Bool) (text : List Char) : Except SyntaxFault (Next text) :=
  match h : skipBlanks text with
  | [] => faultAt .eofInList []
  | c :: rest =>
    have hlen : (c :: rest).length ≤ text.length := h ▸ length_skipBlanks_le text
    if c = ']' then .ok (.done rest (by simp only [List.length_cons] at hlen; omega))
    else if first then .ok (.more (c :: rest) hlen)
    else if c = ',' then
      match h' : skipBlanks rest with
      | [] => faultAt .eofInValue []
      | d :: rest' =>
        if d = ']' then faultOn .trailingComma (d :: rest')
        else .ok (.more (d :: rest') (by
          have := length_skipBlanks_le rest
          rw [h'] at this
          simp only [List.length_cons] at hlen this ⊢
          omega))
    else faultOn .expectedListCommaOrEnd (c :: rest)

/--
Whether another member follows in an object; the rest of the text is behind the quote of its key.
-/
def nextMember (first : Bool) (text : List Char) : Except SyntaxFault (Next text) :=
  match h : skipBlanks text with
  | [] => faultAt .eofInObject []
  | c :: rest =>
    have hlen : (c :: rest).length ≤ text.length := h ▸ length_skipBlanks_le text
    if c = '\x7d' then .ok (.done rest (by simp only [List.length_cons] at hlen; omega))
    else if first then
      if c = '"' then .ok (.more rest (by simp only [List.length_cons] at hlen; omega))
      else faultOn .keyNotString (c :: rest)
    else if c = ',' then
      match h' : skipBlanks rest with
      | [] => faultAt .eofInValue []
      | d :: rest' =>
        if d = '"' then .ok (.more rest' (by
          have := length_skipBlanks_le rest
          rw [h'] at this
          simp only [List.length_cons] at hlen this ⊢
          omega))
        else if d = '\x7d' then faultOn .trailingComma (d :: rest')
        else faultOn .keyNotString (d :: rest')
    else faultOn .expectedObjectCommaOrEnd (c :: rest)

mutual

/-- A value at the front of a text, with `depth` more containers allowed. -/
def readValue (depth : Nat) (text : List Char) : Reading Json text :=
  match h : skipBlanks text with
  | [] => faultAt .eofInValue []
  | c :: rest =>
    have hlen : rest.length < text.length := by
      have := length_skipBlanks_le text
      rw [h, List.length_cons] at this
      exact this
    if c = '[' then
      match depth with
      | 0 => faultOn .recursionLimit (c :: rest)
      | depth + 1 =>
        match readItems depth true [] rest with
        | .error e => .error e
        | .ok r => .ok ⟨.arr r.value, r.rest, Nat.lt_trans r.shorter hlen⟩
    else if c = '\x7b' then
      match depth with
      | 0 => faultOn .recursionLimit (c :: rest)
      | depth + 1 =>
        match readMembers depth true [] rest with
        | .error e => .error e
        | .ok r => .ok ⟨.obj r.value, r.rest, Nat.lt_trans r.shorter hlen⟩
    else
      match hr : readScalar c rest with
      | .error e => .error e
      | .ok (v, rest') => .ok ⟨v, rest', Nat.lt_of_le_of_lt (length_readScalar hr) hlen⟩
termination_by (text.length, 0)

/-- The items up to the closing bracket; `done` holds those read so far, reversed. -/
def readItems (depth : Nat) (first : Bool) (done : List Json) (text : List Char) :
    Reading (List Json) text :=
  match nextItem first text with
  | .error e => .error e
  | .ok (.done rest h) => .ok ⟨done.reverse, rest, h⟩
  | .ok (.more rest h) =>
    match readValue depth rest with
    | .error e => .error e
    | .ok r =>
      have hlt : r.rest.length < text.length := Nat.lt_of_lt_of_le r.shorter h
      match readItems depth false (r.value :: done) r.rest with
      | .error e => .error e
      | .ok t => .ok ⟨t.value, t.rest, Nat.lt_trans t.shorter hlt⟩
termination_by (text.length, 1)
decreasing_by
  · rcases Nat.lt_or_eq_of_le h with h | h
    · exact Prod.Lex.left _ _ h
    · rw [h]; exact Prod.Lex.right _ (by decide)
  · exact Prod.Lex.left _ _ hlt

/-- The members up to the closing brace, put one after the other. -/
def readMembers (depth : Nat) (first : Bool) (done : Members) (text : List Char) :
    Reading Members text :=
  match nextMember first text with
  | .error e => .error e
  | .ok (.done rest h) => .ok ⟨done, rest, h⟩
  | .ok (.more rest h) =>
    match hk : readString [] rest with
    | .error e => .error e
    | .ok (key, rest₁) =>
      match hc : readColon rest₁ with
      | .error e => .error e
      | .ok rest₂ =>
        have hlt : rest₂.length < text.length := by
          have := length_readString hk
          have := length_readColon hc
          omega
        match readValue depth rest₂ with
        | .error e => .error e
        | .ok r =>
          have hlt' : r.rest.length < text.length := Nat.lt_trans r.shorter hlt
          match readMembers depth false (Keyed.put key r.value done) r.rest with
          | .error e => .error e
          | .ok t => .ok ⟨t.value, t.rest, Nat.lt_trans t.shorter hlt'⟩
termination_by (text.length, 1)

end

/-- A whole text as one value, with at most `limit` containers open at once. -/
def readWithin (limit : Nat) (text : String) : Except SyntaxError Json :=
  let chars := text.toList
  let fault (f : SyntaxFault) : SyntaxError := f.locate chars
  match readValue limit chars with
  | .error f => .error (fault f)
  | .ok r =>
    match skipBlanks r.rest with
    | [] => .ok r.value
    | rest => .error (fault ⟨.trailingCharacters, rest, 1⟩)

/-- A whole text as one value. -/
def read (text : String) : Except SyntaxError Json := readWithin nestingLimit text

end Json

end FieldMask
