import FieldMask.Proofs.Mask.Framing

/-!
# Where a text stops being a mask

An error that has an offset points at the first character that the reader cannot take: at a brace or
a comma that stands at that byte of the text, and what stands before it is the beginning of a mask,
which closing braces complete (`exists_parse_of_error`).

The tokens before the one that is refused are those of the text before its character
(`exists_of_ofText_eq_append`), they were read without an error, and the levels that are open then
can be closed (`exists_readAll_closed`).
-/

namespace FieldMask

/-- The offset of an error and the character that it is about, if it is about one. -/
def MaskParseError.spot? : MaskParseError → Option (Nat × Char)
  | .unexpectedOpeningBracket offset => some (offset, '\x7b')
  | .unexpectedClosingBracket offset => some (offset, '\x7d')
  | .unexpectedComma offset => some (offset, ',')
  | .missingClosingBracket => none

/-! ## Tokens at their characters -/

theorem symbol?_injective {c d : Char} {token : Token} (hc : symbol? c = some token)
    (hd : symbol? d = some token) : c = d := by
  unfold symbol? at hc hd
  grind

theorem symbol?_ne_name {c : Char} {text : String} : symbol? c ≠ some (.name text) := by
  unfold symbol?
  grind

theorem EndsName.of_append {a b : List Char} (h : EndsName (a ++ b)) : EndsName a := by
  cases a with
  | nil => exact endsName_nil
  | cons c rest => exact h

/-- A token of one character begins where that character stands, behind the tokens before it. -/
theorem exists_of_ofText_eq_append {text : List Char} {offset : Nat} {pre post : List Lexeme}
    {l : Lexeme} {c : Char} (h : Lexeme.ofText offset text = pre ++ l :: post)
    (hc : symbol? c = some l.token) :
    ∃ front back, text = front ++ c :: back ∧ Lexeme.ofText offset front = pre ∧
      offset + utf8Length front = l.offset := by
  induction text using text_induct generalizing offset pre with
  | nil =>
    rw [ofText_nil] at h
    exact absurd h.symm (by simp)
  | char d rest hd ih =>
    rw [ofText_cons hd] at h
    have hcases : (∃ pre', pre = (symbol? d).toList.map (⟨·, offset⟩) ++ pre' ∧
          Lexeme.ofText (offset + d.utf8Size) rest = pre' ++ l :: post) ∨
        pre = [] ∧ symbol? d = some l.token ∧ offset = l.offset := by
      cases hs : symbol? d with
      | none =>
        rw [hs] at h
        exact .inl ⟨pre, rfl, h⟩
      | some token =>
        rw [hs] at h
        cases pre with
        | nil =>
          obtain ⟨rfl, -⟩ := List.cons.inj h
          exact .inr ⟨rfl, rfl, rfl⟩
        | cons first pre =>
          obtain ⟨rfl, hrest⟩ := List.cons.inj h
          exact .inl ⟨pre, rfl, hrest⟩
    rcases hcases with ⟨pre', rfl, hrest⟩ | ⟨rfl, hown, hoffset⟩
    · obtain ⟨front, back, rfl, hfront, hoffset⟩ := ih hrest
      refine ⟨d :: front, back, rfl, ?_, ?_⟩
      · rw [ofText_cons hd, hfront]
      · rw [utf8Length_cons, ← Nat.add_assoc, hoffset]
    · obtain rfl := symbol?_injective hc hown
      exact ⟨[], rest, rfl, ofText_nil offset, hoffset⟩
  | name run rest hne hrun hrest ih =>
    rw [ofText_name offset hne hrun hrest] at h
    cases pre with
    | nil =>
      obtain ⟨rfl, -⟩ := List.cons.inj h
      exact absurd hc symbol?_ne_name
    | cons first pre =>
      obtain ⟨rfl, hbehind⟩ := List.cons.inj h
      obtain ⟨front, back, rfl, hfront, hoffset⟩ := ih hbehind
      refine ⟨run ++ front, back, (List.append_assoc ..).symm, ?_, ?_⟩
      · rw [ofText_name offset hne hrun hrest.of_append, hfront]
      · rw [utf8Length_append, ← Nat.add_assoc, hoffset]

namespace Mask

/-! ## The token that is refused -/

theorem spot?_of_step {st : ParseState} {l : Lexeme} {e : MaskParseError}
    (h : st.step l = .error e) : ∃ c, e.spot? = some (l.offset, c) ∧ symbol? c = some l.token := by
  obtain ⟨current, outer, previous⟩ := st
  obtain ⟨token, offset⟩ := l
  cases token with
  | openBrace =>
    refine ⟨'\x7b', ?_, rfl⟩
    cases previous with
    | name index =>
      simp only [ParseState.step, ParseState.opening] at h
      split at h
      · obtain rfl := Except.error.inj h
        rfl
      · cases h
    | start | opened | closed | comma =>
      obtain rfl := Except.error.inj h
      rfl
  | closeBrace =>
    refine ⟨'\x7d', ?_, rfl⟩
    cases outer with
    | nil =>
      obtain rfl := Except.error.inj h
      rfl
    | cons level outer => cases h
  | comma =>
    refine ⟨',', ?_, rfl⟩
    cases previous with
    | start | opened | comma =>
      obtain rfl := Except.error.inj h
      rfl
    | closed | name => cases h
  | name text => cases h

/-- An error with an offset is about a token, and the tokens before it are read without one. -/
theorem exists_of_readAll_eq_error {lexemes : List Lexeme} {e : MaskParseError} {offset : Nat}
    {c : Char} (h : readAll lexemes = .error e) (hs : e.spot? = some (offset, c)) :
    ∃ pre l post st, lexemes = pre ++ l :: post ∧ ParseState.run .initial pre = .ok st ∧
      symbol? c = some l.token ∧ l.offset = offset := by
  rcases bind_eq_error.1 h with h | ⟨st, -, h⟩
  · obtain ⟨pre, l, post, st, rfl, hpre, hstep⟩ := exists_of_foldlM_eq_error h
    obtain ⟨d, hd, htoken⟩ := spot?_of_step hstep
    obtain ⟨rfl, rfl⟩ := Prod.mk.inj (Option.some.inj (hd.symm.trans hs))
    exact ⟨pre, l, post, st, rfl, hpre, htoken, rfl⟩
  · split at h
    · cases h
    · obtain rfl := Except.error.inj h
      cases hs

/-! ## Closing what is open -/

theorem endsName_closing (k : Nat) : EndsName (List.replicate k '\x7d') := by
  cases k with
  | zero => exact endsName_nil
  | succ k => exact endsName_cons isNameChar_closeBrace _

theorem solid_closing (k : Nat) : solid (List.replicate k '\x7d') = List.replicate k '\x7d' :=
  List.filter_replicate_of_pos (by decide)

/-- As many closing braces as levels are open close them all. -/
theorem exists_run_closing (st : ParseState) (offset : Nat) :
    ∃ next, st.run (Lexeme.ofText offset (List.replicate st.outer.length '\x7d')) = .ok next ∧
      next.outer = [] := by
  obtain ⟨current, outer, previous⟩ := st
  induction outer generalizing current previous offset with
  | nil => exact ⟨_, by rw [List.length_nil, List.replicate_zero, ofText_nil]; rfl, rfl⟩
  | cons level outer ih =>
    rw [List.length_cons, List.replicate_succ, ofText_cons isNameChar_closeBrace]
    exact ih ..

/-- Tokens that are read without an error are the beginning of a mask. -/
theorem exists_readAll_closed {lexemes : List Lexeme} {st : ParseState}
    (h : ParseState.run .initial lexemes = .ok st) (offset : Nat) :
    ∃ m, readAll (lexemes ++ Lexeme.ofText offset (List.replicate st.outer.length '\x7d'))
      = .ok m := by
  obtain ⟨next, hnext, houter⟩ := exists_run_closing st offset
  rw [readAll, ParseState.run_append h, hnext, bind_ok, houter]
  exact ⟨_, rfl⟩

theorem exists_parse_closed {front : List Char} {st : ParseState}
    (h : ParseState.run .initial (Lexeme.ofText 0 front) = .ok st)
    (hhead : (solid front).head? ≠ some '\x7b') :
    ∃ k m, Mask.parse (String.ofList (front ++ List.replicate k '\x7d')) = .ok m := by
  refine ⟨st.outer.length, ?_⟩
  have hclosed : (solid (front ++ List.replicate st.outer.length '\x7d')).head? ≠ some '\x7b' := by
    rw [solid_append, solid_closing, List.head?_append]
    cases hsolid : (solid front).head? with
    | some c => rwa [Option.some_or, ← hsolid]
    | none =>
      rw [Option.none_or]
      cases st.outer.length with
      | zero => simp
      | succ k => simp [List.replicate_succ]
  rw [parse_eq, String.toList_ofList, if_neg hclosed, ofText_append (endsName_closing _)]
  exact exists_readAll_closed h _

/-- A text with tokens has a character that is no blank, and what follows it does not change it. -/
theorem head?_solid_of_append {front rest : List Char} {offset : Nat} {first : Lexeme}
    {lexemes : List Lexeme} {c : Char} (hl : Lexeme.ofText offset front = first :: lexemes)
    (h : (solid (front ++ rest)).head? = some c) : (solid front).head? = some c := by
  rw [solid_append, List.head?_append] at h
  cases hsolid : (solid front).head? with
  | some d => rwa [hsolid, Option.some_or] at h
  | none =>
    have hblank : ∀ d ∈ front, isBlankChar d = true := by
      simpa [solid] using List.head?_eq_none_iff.1 hsolid
    rw [ofText_of_blank hblank] at hl
    cases hl

/-- In a text that opens a brace at its front, one more closing brace ends it. -/
theorem exists_parse_closed_braces {front : List Char} {first : Lexeme} {rest : List Lexeme}
    {st : ParseState} (hl : Lexeme.ofText 0 front = first :: rest)
    (h : ParseState.run .initial rest = .ok st) (hhead : (solid front).head? = some '\x7b') :
    ∃ k m, Mask.parse (String.ofList (front ++ List.replicate k '\x7d')) = .ok m := by
  refine ⟨st.outer.length + 1, ?_⟩
  obtain ⟨tail, htail⟩ := List.head?_eq_some_iff.1 hhead
  have hsolid : solid (front ++ List.replicate (st.outer.length + 1) '\x7d')
      = '\x7b' :: (tail ++ List.replicate st.outer.length '\x7d' ++ ['\x7d']) := by
    rw [solid_append, solid_closing, htail, List.replicate_succ', List.cons_append,
      List.append_assoc]
  have htokens :
      (Lexeme.ofText 0 (front ++ List.replicate (st.outer.length + 1) '\x7d')).tail.dropLast
        = rest ++ Lexeme.ofText (0 + utf8Length front) (List.replicate st.outer.length '\x7d') := by
    rw [ofText_append (endsName_closing _), hl, List.replicate_succ',
      ofText_append (endsName_cons isNameChar_closeBrace []), ofText_cons isNameChar_closeBrace,
      ofText_nil, List.cons_append, List.tail_cons, ← List.append_assoc]
    exact List.dropLast_concat
  rw [parse_eq, String.toList_ofList, hsolid, htokens, List.head?_cons, if_pos rfl, List.tail_cons,
    List.getLast?_concat, if_pos rfl]
  exact exists_readAll_closed h _

/-! ## Errors with an offset -/

theorem utf8ByteSize_ofList (chars : List Char) :
    (String.ofList chars).utf8ByteSize = utf8Length chars := by
  induction chars with
  | nil => rfl
  | cons c rest ih =>
    rw [String.ofList_cons, String.utf8ByteSize_append, String.utf8ByteSize_singleton, ih,
      utf8Length_cons]

theorem exists_of_tail_dropLast {α : Type} {xs ys : List α} (h : xs.tail.dropLast = ys)
    (hne : ys ≠ []) : ∃ first last, xs = first :: (ys ++ [last]) := by
  subst h
  cases xs with
  | nil => exact absurd rfl hne
  | cons x xs =>
    rcases List.eq_nil_or_concat' xs with rfl | ⟨front, last, rfl⟩
    · exact absurd rfl hne
    · exact ⟨x, last, by rw [List.tail_cons, List.dropLast_concat]⟩

/--
**An error with an offset points at the first violation**: its character stands at that byte of the
text, and what is before it, with some closing braces behind it, is a mask.
-/
theorem exists_parse_of_error {text : String} {e : MaskParseError} {offset : Nat} {c : Char}
    (h : Mask.parse text = .error e) (hs : e.spot? = some (offset, c)) :
    ∃ front back : String, text = front ++ String.singleton c ++ back ∧
      front.utf8ByteSize = offset ∧
      ∃ k m, Mask.parse (front ++ String.ofList (List.replicate k '\x7d')) = .ok m := by
  suffices hchars : ∃ front back : List Char, text.toList = front ++ c :: back ∧
      utf8Length front = offset ∧
      ∃ k m, Mask.parse (String.ofList (front ++ List.replicate k '\x7d')) = .ok m by
    obtain ⟨front, back, htext, hoffset, k, m, hm⟩ := hchars
    refine ⟨.ofList front, .ofList back, ?_, (utf8ByteSize_ofList front).trans hoffset, k, m, ?_⟩
    · rw [← String.toList_inj, htext]
      simp
    · rwa [← String.ofList_append]
  rw [parse_eq] at h
  split at h
  · rename_i hhead
    split at h
    · obtain ⟨pre, l, post, st, hlexemes, hpre, hl, rfl⟩ := exists_of_readAll_eq_error h hs
      obtain ⟨first, last, htokens⟩ := exists_of_tail_dropLast hlexemes (by simp)
      have hsplit : Lexeme.ofText 0 text.toList = (first :: pre) ++ l :: (post ++ [last]) := by
        rw [htokens]
        simp
      obtain ⟨front, back, htext, hfront, hoffset⟩ := exists_of_ofText_eq_append hsplit hl
      have hopens : (solid front).head? = some '\x7b' := by
        rw [htext] at hhead
        exact head?_solid_of_append hfront hhead
      exact ⟨front, back, htext, by omega, exists_parse_closed_braces hfront hpre hopens⟩
    · obtain rfl := Except.error.inj h
      cases hs
  · rename_i hhead
    obtain ⟨pre, l, post, st, hlexemes, hpre, hl, rfl⟩ := exists_of_readAll_eq_error h hs
    obtain ⟨front, back, htext, rfl, hoffset⟩ := exists_of_ofText_eq_append hlexemes hl
    refine ⟨front, back, htext, by omega, exists_parse_closed hpre fun hcontra => hhead ?_⟩
    rw [htext, solid_append, List.head?_append, hcontra]
    rfl

theorem exists_parse_of_error_second_comma :
    Mask.parse "\u3000\x7b a\x7bb\x7d,,\x7d" = .error (.unexpectedComma 10) ∧
    ∃ front back : String,
      "\u3000\x7b a\x7bb\x7d,,\x7d" = front ++ String.singleton ',' ++ back ∧
      front.utf8ByteSize = 10 ∧
      ∃ k m, Mask.parse (front ++ String.ofList (List.replicate k '\x7d')) = .ok m :=
  have h : Mask.parse "\u3000\x7b a\x7bb\x7d,,\x7d" = .error (.unexpectedComma 10) := by
    decide +kernel
  ⟨h, exists_parse_of_error h rfl⟩

end Mask

end FieldMask
