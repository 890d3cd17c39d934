import FieldMask.Proofs.Mask.Grammar
import FieldMask.Proofs.Text.Blank

/-!
# Mask texts as a whole

The reader takes the blanks around a text off, then a pair of braces, and reads the tokens of what
is left. `parse_eq` says the same of the tokens of the whole text: they are read as they are, unless
the first character that is no blank opens a brace. In that case the last one has to close a brace,
and the tokens between the two are read.

This rests on two facts about tokens. Those of texts put together are those of the parts, where no
name runs on (`ofText_append`), and blanks have none (`ofText_of_blank`).
-/

namespace FieldMask

/-! ## Tokens of the parts of a text -/

/-- The token that a character is on its own. -/
def symbol? (c : Char) : Option Token :=
  if c = '\x7b' then some .openBrace
  else if c = '\x7d' then some .closeBrace
  else if c = ',' then some .comma
  else none

theorem ofText_nil (offset : Nat) : Lexeme.ofText offset [] = [] := by rw [Lexeme.ofText]

theorem ofText_cons {c : Char} (h : isNameChar c = false) (offset : Nat) (rest : List Char) :
    Lexeme.ofText offset (c :: rest)
      = (symbol? c).toList.map (⟨·, offset⟩) ++ Lexeme.ofText (offset + c.utf8Size) rest := by
  rw [Lexeme.ofText, h, if_neg Bool.false_ne_true, symbol?]
  split
  · rfl
  · split
    · rfl
    · split <;> rfl

/-- A text is empty, or begins with a character that is in no name, or with a whole name. -/
@[elab_as_elim]
theorem text_induct {motive : List Char → Prop} (nil : motive [])
    (char : ∀ c rest, isNameChar c = false → motive rest → motive (c :: rest))
    (name : ∀ run rest, run ≠ [] → (∀ c ∈ run, isNameChar c = true) → EndsName rest →
      motive rest → motive (run ++ rest)) (text : List Char) : motive text := by
  have h := lexes_ofText text 0
  generalize (Lexeme.ofText 0 text).map Lexeme.token = ts at h
  induction h with
  | nil => exact nil
  | openBrace _ ih => exact char _ _ isNameChar_openBrace ih
  | closeBrace _ ih => exact char _ _ isNameChar_closeBrace ih
  | comma _ ih => exact char _ _ isNameChar_comma ih
  | skip hname _ _ _ _ ih => exact char _ _ hname ih
  | name hne hrun hrest _ ih => exact name _ _ hne hrun hrest ih

theorem EndsName.append {a b : List Char} (ha : EndsName a) (hb : EndsName b) :
    EndsName (a ++ b) := by
  cases a with
  | nil => exact hb
  | cons c rest => exact ha

/-- The tokens of texts put together are those of both, if no name of the first one runs on. -/
theorem ofText_append {a b : List Char} (h : EndsName b) (offset : Nat) :
    Lexeme.ofText offset (a ++ b)
      = Lexeme.ofText offset a ++ Lexeme.ofText (offset + utf8Length a) b := by
  induction a using text_induct generalizing offset with
  | nil => rw [ofText_nil]; rfl
  | char c rest hc ih =>
    rw [List.cons_append, ofText_cons hc, ofText_cons hc, ih, List.append_assoc, utf8Length_cons,
      Nat.add_assoc]
  | name run rest hne hrun hrest ih =>
    rw [List.append_assoc, ofText_name offset hne hrun (hrest.append h),
      ofText_name offset hne hrun hrest, ih, List.cons_append, utf8Length_append, Nat.add_assoc]

/-! ## Blanks -/

/-- A blank is no name character, and no token either. -/
theorem not_name_of_blank {c : Char} (h : isBlankChar c = true) :
    isNameChar c = false ∧ symbol? c = none := by
  have hall : ∀ code ∈ blankRanges.flatMap fun r => List.range' r.1 (r.2 + 1 - r.1),
      isNameChar (Char.ofNat code) = false ∧ symbol? (Char.ofNat code) = none := by
    decide +kernel
  have := hall c.toNat (mem_codes_of_inRanges h)
  rwa [Char.ofNat_toNat] at this

theorem endsName_of_blank {text : List Char} (h : ∀ c ∈ text, isBlankChar c = true) :
    EndsName text :=
  fun c hc => (not_name_of_blank (h c (List.mem_of_mem_head? hc))).1

/-- Blanks in front of a text move its tokens. -/
theorem ofText_blank_append {blanks : List Char} (h : ∀ c ∈ blanks, isBlankChar c = true)
    (offset : Nat) (rest : List Char) :
    Lexeme.ofText offset (blanks ++ rest) = Lexeme.ofText (offset + utf8Length blanks) rest := by
  induction blanks generalizing offset with
  | nil => rfl
  | cons c blanks ih =>
    obtain ⟨hc, hblanks⟩ := List.forall_mem_cons.1 h
    obtain ⟨hname, hsymbol⟩ := not_name_of_blank hc
    rw [List.cons_append, ofText_cons hname, hsymbol, ih hblanks, utf8Length_cons, Nat.add_assoc]
    rfl

/-- Blanks have no tokens. -/
theorem ofText_of_blank {text : List Char} (h : ∀ c ∈ text, isBlankChar c = true) (offset : Nat) :
    Lexeme.ofText offset text = [] := by
  rw [← List.append_nil text, ofText_blank_append h, ofText_nil]

/-- The characters of a text that are no blanks. -/
def solid (text : List Char) : List Char := text.filter fun c => !isBlankChar c

@[simp] theorem solid_append (a b : List Char) : solid (a ++ b) = solid a ++ solid b :=
  List.filter_append ..

theorem solid_of_blank {text : List Char} (h : ∀ c ∈ text, isBlankChar c = true) :
    solid text = [] := by
  refine List.filter_eq_nil_iff.2 fun c hc => ?_
  rw [h c hc]
  exact Bool.false_ne_true

theorem solid_cons_of_not {c : Char} (h : isBlankChar c = false) (rest : List Char) :
    solid (c :: rest) = c :: solid rest :=
  List.filter_cons_of_pos (by rw [h]; rfl)

theorem solid_trim (text : List Char) : solid (trim text) = solid text := by
  obtain ⟨trail, htext, htrail⟩ := exists_trim text
  conv_rhs => rw [htext]
  rw [solid_append, solid_append, solid_of_blank (forall_mem_takeWhile_blank text),
    solid_of_blank htrail, List.nil_append, List.append_nil]

theorem head?_trim (text : List Char) : (trim text).head? = (solid text).head? := by
  rw [← solid_trim]
  cases h : trim text with
  | nil => rfl
  | cons c rest =>
    have hc : (trim text).head? = some c := by rw [h]; rfl
    rw [solid_cons_of_not (not_blank_of_head?_trim hc)]
    rfl

/-- Behind the first of its characters, a text without blanks around it ends as it does solid. -/
theorem getLast?_of_trim {text inner : List Char} {c : Char} (h : trim text = c :: inner) :
    inner.getLast? = (solid text).tail.getLast? := by
  have hc : (trim text).head? = some c := by rw [h]; rfl
  have hsolid : solid text = c :: solid inner := by
    rw [← solid_trim, h, solid_cons_of_not (not_blank_of_head?_trim hc)]
  rw [hsolid, List.tail_cons]
  rcases List.eq_nil_or_concat' inner with rfl | ⟨front, d, rfl⟩
  · rfl
  · have hd : (trim text).getLast? = some d := by
      rw [h, ← List.cons_append, List.getLast?_concat]
    have hend : solid [d] = [d] := solid_cons_of_not (not_blank_of_getLast?_trim hd) []
    rw [solid_append, hend, List.getLast?_concat, List.getLast?_concat]

/-! ## Reading the tokens of the whole text -/

namespace Mask

/-- The mask that tokens write, read to the end with no level left open. -/
def readAll (lexemes : List Lexeme) : Except MaskParseError Mask := do
  let st ← ParseState.run .initial lexemes
  if st.outer.isEmpty then return ⟨st.current⟩ else throw .missingClosingBracket

theorem parse_of_body {text : String} {offset : Nat} {chars : List Char}
    (h : body text.toList = .ok (offset, chars)) :
    Mask.parse text = readAll (Lexeme.ofText offset chars) := by
  rw [Mask.parse, h]
  rfl

/-- The tokens of a text are those of what is left without the blanks around it. -/
theorem ofText_trim (text : List Char) :
    Lexeme.ofText 0 text
      = Lexeme.ofText (utf8Length (text.takeWhile isBlankChar)) (trim text) := by
  obtain ⟨trail, htext, htrail⟩ := exists_trim text
  conv_lhs => rw [htext]
  rw [ofText_blank_append (forall_mem_takeWhile_blank text),
    ofText_append (endsName_of_blank htrail), ofText_of_blank htrail, List.append_nil, Nat.zero_add]

/-- **A text is read by its tokens**, less an outer pair of braces. -/
theorem parse_eq (text : String) :
    Mask.parse text =
      if (solid text.toList).head? = some '\x7b' then
        if (solid text.toList).tail.getLast? = some '\x7d' then
          readAll (Lexeme.ofText 0 text.toList).tail.dropLast
        else .error .missingClosingBracket
      else readAll (Lexeme.ofText 0 text.toList) := by
  rw [ofText_trim, ← head?_trim]
  split
  · rename_i hhead
    obtain ⟨inner, htrim⟩ := List.head?_eq_some_iff.1 hhead
    rw [← getLast?_of_trim htrim]
    split
    · rename_i hlast
      obtain ⟨front, rfl⟩ := List.getLast?_eq_some_iff.1 hlast
      have hbody : body text.toList
          = .ok (utf8Length (text.toList.takeWhile isBlankChar) + 1, front) := by
        rw [body, htrim]
        simp
      rw [parse_of_body hbody, htrim, ofText_cons isNameChar_openBrace,
        ofText_append (endsName_cons isNameChar_closeBrace []), ofText_cons isNameChar_closeBrace,
        ofText_nil]
      show _ = readAll (List.dropLast (_ ++ [_]))
      rw [List.dropLast_concat]
      rfl
    · rename_i hlast
      have hbody : body text.toList = .error .missingClosingBracket := by
        rw [body, htrim]
        simp [hlast]
      rw [Mask.parse, hbody]
      rfl
  · rename_i hhead
    refine parse_of_body ?_
    rw [body]
    split
    · rename_i inner htrim
      rw [htrim] at hhead
      exact absurd rfl hhead
    · rfl

end Mask

end FieldMask
