import FieldMask.Proofs.Mask.Framing

/-!
# Layout of mask texts

Blanks may be put anywhere into a mask text, except inside a name, and braces around a text that
does not begin with one: the mask that is read stays the same, and an error is the same as well, at
the place to which its character has moved (`parse_laid_out`).

A `Layout` is a text together with the characters that are put into it. The tokens before and after
are the same, at offsets that have moved (`ofText_text`), and moving the tokens that are read only
moves the error (`readAll_moved`).
-/

namespace FieldMask

/-! ## Moved tokens -/

/-- The token at another offset. -/
def Lexeme.moved (f : Nat → Nat) (l : Lexeme) : Lexeme := { l with offset := f l.offset }

/-- The error at another offset. -/
def MaskParseError.moved (f : Nat → Nat) : MaskParseError → MaskParseError
  | .unexpectedOpeningBracket offset => .unexpectedOpeningBracket (f offset)
  | .unexpectedClosingBracket offset => .unexpectedClosingBracket (f offset)
  | .unexpectedComma offset => .unexpectedComma (f offset)
  | .missingClosingBracket => .missingClosingBracket

/-- The tokens of a text that begins further on. -/
theorem ofText_add (offset more : Nat) (text : List Char) :
    Lexeme.ofText (offset + more) text
      = (Lexeme.ofText offset text).map (·.moved (· + more)) := by
  induction text using text_induct generalizing offset with
  | nil => rw [ofText_nil, ofText_nil]; rfl
  | char c rest hc ih =>
    rw [ofText_cons hc, ofText_cons hc, Nat.add_right_comm, ih, List.map_append, List.map_map]
    rfl
  | name run rest hne hrun hrest ih =>
    rw [ofText_name _ hne hrun hrest, ofText_name _ hne hrun hrest, Nat.add_right_comm, ih]
    rfl

namespace Mask

variable {f : Nat → Nat}

theorem step_moved (st : ParseState) (l : Lexeme) :
    st.step (l.moved f) = (st.step l).mapError (·.moved f) := by
  obtain ⟨current, outer, previous⟩ := st
  obtain ⟨token, offset⟩ := l
  cases token with
  | openBrace =>
    cases previous with
    | name index =>
      simp only [Lexeme.moved, ParseState.step, ParseState.opening]
      split <;> rfl
    | start | opened | closed | comma => rfl
  | closeBrace => cases outer <;> rfl
  | comma => cases previous <;> rfl
  | name text => rfl

theorem run_moved (st : ParseState) (lexemes : List Lexeme) :
    st.run (lexemes.map (·.moved f)) = (st.run lexemes).mapError (·.moved f) := by
  induction lexemes generalizing st with
  | nil => rfl
  | cons l rest ih =>
    rw [List.map_cons, ParseState.run, ParseState.run, List.foldlM_cons, List.foldlM_cons,
      step_moved, mapError_bind]
    exact bind_congr ih

/-- To read moved tokens is to move the error. -/
theorem readAll_moved (lexemes : List Lexeme) :
    readAll (lexemes.map (·.moved f)) = (readAll lexemes).mapError (·.moved f) := by
  rw [readAll, readAll, run_moved, mapError_bind]
  refine bind_congr fun st => ?_
  split <;> rfl

end Mask

/-! ## Characters put into a text -/

/-- A character of a text that is laid out anew. -/
inductive Placed
  /-- One that the text had before. -/
  | own (c : Char)
  /-- One that is put in. -/
  | added (c : Char)

/-- A text with the characters that are put into it. -/
abbrev Layout := List Placed

namespace Layout

/-- The text before. -/
def source : Layout → List Char
  | [] => []
  | .own c :: rest => c :: source rest
  | .added _ :: rest => source rest

/-- The text after. -/
def text : Layout → List Char
  | [] => []
  | .own c :: rest => c :: text rest
  | .added c :: rest => c :: text rest

/-- How many bytes are put in before the character that begins at an offset of the text before. -/
def addedBefore : Layout → Nat → Nat
  | [], _ => 0
  | .own c :: rest, offset =>
    if offset < c.utf8Size then 0 else addedBefore rest (offset - c.utf8Size)
  | .added c :: rest, offset => c.utf8Size + addedBefore rest offset

/-- Only blanks are put in, and none between two name characters. -/
def Loose (l : Layout) : Prop :=
  ∀ front c back, l = front ++ .added c :: back → isBlankChar c = true ∧
    ¬((∃ d ∈ (source front).getLast?, isNameChar d = true) ∧
      ∃ d ∈ (source back).head?, isNameChar d = true)

variable {l rest : Layout} {c : Char}

theorem addedBefore_own (k : Nat) :
    addedBefore (.own c :: rest) (c.utf8Size + k) = addedBefore rest k := by
  rw [addedBefore, if_neg (by omega), Nat.add_sub_cancel_left]

theorem addedBefore_own_zero : addedBefore (.own c :: rest) 0 = 0 := by
  rw [addedBefore, if_pos c.utf8Size_pos]

theorem addedBefore_owns (run : List Char) (k : Nat) :
    addedBefore (run.map .own ++ rest) (utf8Length run + k) = addedBefore rest k := by
  induction run with
  | nil => rw [utf8Length_nil, Nat.zero_add]; rfl
  | cons c run ih =>
    rw [List.map_cons, List.cons_append, utf8Length_cons, Nat.add_assoc, addedBefore_own, ih]

theorem text_owns (run : List Char) : text (run.map .own ++ rest) = run ++ text rest := by
  induction run with
  | nil => rfl
  | cons c run ih => exact congrArg (c :: ·) ih

theorem source_owns (run : List Char) : source (run.map .own ++ rest) = run ++ source rest := by
  induction run with
  | nil => rfl
  | cons c run ih => exact congrArg (c :: ·) ih

theorem Loose.blank (h : Loose (.added c :: rest)) : isBlankChar c = true := (h [] c rest rfl).1

theorem Loose.of_added (h : Loose (.added c :: rest)) : Loose rest :=
  fun front d back hrest => h (.added c :: front) d back (congrArg (.added c :: ·) hrest)

theorem Loose.of_own (h : Loose (.own c :: rest)) : Loose rest := by
  intro front d back hrest
  obtain ⟨hblank, hname⟩ := h (.own c :: front) d back (congrArg (.own c :: ·) hrest)
  refine ⟨hblank, fun ⟨⟨e, he, hlast⟩, hback⟩ => hname ⟨⟨e, ?_, hlast⟩, hback⟩⟩
  rw [Option.mem_def] at he ⊢
  rw [source, List.getLast?_cons, he]
  rfl

theorem Loose.of_owns {run : List Char} (h : Loose (run.map .own ++ rest)) : Loose rest := by
  induction run with
  | nil => exact h
  | cons c run ih => exact ih h.of_own

/-- A name of the text before is a name of the text after: nothing is put into it. -/
theorem Loose.exists_run (h : Loose (.own c :: rest)) (hc : isNameChar c = true) :
    ∃ (run : List Char) (back : Layout), rest = run.map .own ++ back ∧
      (∀ d ∈ run, isNameChar d = true) ∧ EndsName (source back) ∧ EndsName (text back) := by
  induction rest generalizing c with
  | nil => exact ⟨[], [], rfl, List.forall_mem_nil _, endsName_nil, endsName_nil⟩
  | cons e rest ih =>
    cases e with
    | own d =>
      by_cases hd : isNameChar d = true
      · obtain ⟨run, back, rfl, hrun, hsource, htext⟩ := ih h.of_own hd
        exact ⟨d :: run, back, rfl, List.forall_mem_cons.2 ⟨hd, hrun⟩, hsource, htext⟩
      · have hd : isNameChar d = false := Bool.eq_false_iff.2 hd
        exact ⟨[], _, rfl, List.forall_mem_nil _, endsName_cons hd _, endsName_cons hd _⟩
    | added d =>
      obtain ⟨hblank, hname⟩ := h [.own c] d rest rfl
      refine ⟨[], _, rfl, List.forall_mem_nil _, fun e he => ?_, ?_⟩
      · exact Bool.eq_false_iff.2 fun hcontra => hname ⟨⟨c, rfl, hc⟩, e, he, hcontra⟩
      · exact endsName_cons (not_name_of_blank hblank).1 _

/-- The tokens after are those before, moved by what is put in before them. -/
theorem ofText_text {l : Layout} (h : l.Loose) {offset offset' : Nat} {f : Nat → Nat}
    (hf : ∀ k, f (offset + k) = offset' + k + l.addedBefore k) :
    Lexeme.ofText offset' l.text = (Lexeme.ofText offset l.source).map (·.moved f) := by
  cases l with
  | nil => rw [text, source, ofText_nil, ofText_nil]; rfl
  | cons e rest =>
    cases e with
    | added c =>
      obtain ⟨hname, hsymbol⟩ := not_name_of_blank h.blank
      rw [text, source, ofText_cons hname, hsymbol]
      refine ofText_text h.of_added fun k => ?_
      rw [hf, addedBefore]
      omega
    | own c =>
      have hzero : f offset = offset' := by
        have := hf 0
        rwa [addedBefore_own_zero] at this
      by_cases hname : isNameChar c = true
      · -- the whole name is one token, so the rest begins behind it
        obtain ⟨run, back, rfl, hrun, hsource, htext⟩ := h.exists_run hname
        have hall : ∀ d ∈ c :: run, isNameChar d = true := List.forall_mem_cons.2 ⟨hname, hrun⟩
        have howns : Placed.own c :: (run.map .own ++ back) = (c :: run).map .own ++ back := rfl
        rw [howns] at h hf ⊢
        rw [text_owns, source_owns, ofText_name _ (List.cons_ne_nil c run) hall hsource,
          ofText_name _ (List.cons_ne_nil c run) hall htext, List.map_cons]
        refine congrArg₂ _ (by rw [Lexeme.moved, hzero]) (ofText_text h.of_owns fun k => ?_)
        rw [Nat.add_assoc, hf, addedBefore_owns]
        omega
      · have hname : isNameChar c = false := Bool.eq_false_iff.2 hname
        rw [text, source, ofText_cons hname, ofText_cons hname, List.map_append, List.map_map]
        refine congrArg₂ _ ?_ (ofText_text h.of_own fun k => ?_)
        · exact List.map_congr_left fun token _ => by rw [Function.comp, Lexeme.moved, hzero]
        · rw [Nat.add_assoc, hf, addedBefore_own]
          omega
termination_by l.length

theorem solid_text (h : l.Loose) : solid l.text = solid l.source := by
  induction l with
  | nil => rfl
  | cons e rest ih =>
    cases e with
    | own c =>
      show solid ([c] ++ text rest) = solid ([c] ++ source rest)
      rw [solid_append, solid_append, ih h.of_own]
    | added c =>
      have hskip : solid (c :: text rest) = solid (text rest) :=
        List.filter_cons_of_neg (by rw [h.blank]; exact Bool.false_ne_true)
      rw [text, source, hskip, ih h.of_added]

end Layout

/-! ## Reading a text that is laid out anew -/

namespace Mask

theorem parse_layout {l : Layout} (h : l.Loose) :
    Mask.parse (String.ofList l.text) = (Mask.parse (String.ofList l.source)).mapError
      (·.moved fun offset => offset + l.addedBefore offset) := by
  have htokens : Lexeme.ofText 0 l.text = (Lexeme.ofText 0 l.source).map
      (·.moved fun offset => offset + l.addedBefore offset) :=
    Layout.ofText_text h fun k => by rw [Nat.zero_add]
  rw [parse_eq, parse_eq, String.toList_ofList, String.toList_ofList, Layout.solid_text h, htokens,
    ← List.map_tail, ← List.map_dropLast, readAll_moved, readAll_moved]
  split
  · split <;> rfl
  · rfl

theorem parse_braces {text : String}
    (h : text.toList.find? (fun c => !isBlankChar c) ≠ some '\x7b') :
    Mask.parse ("\x7b" ++ text ++ "\x7d") = (Mask.parse text).mapError (·.moved (· + 1)) := by
  have htext : ("\x7b" ++ text ++ "\x7d").toList = '\x7b' :: (text.toList ++ ['\x7d']) := by simp
  have hsolid : solid ('\x7b' :: (text.toList ++ ['\x7d']))
      = '\x7b' :: (solid text.toList ++ ['\x7d']) := by
    rw [solid_cons_of_not (by decide), solid_append]
    rfl
  have htokens : Lexeme.ofText 0 ('\x7b' :: (text.toList ++ ['\x7d']))
      = ⟨.openBrace, 0⟩ :: (Lexeme.ofText 1 text.toList
        ++ [⟨.closeBrace, 1 + utf8Length text.toList⟩]) := by
    rw [ofText_cons isNameChar_openBrace, ofText_append (endsName_cons isNameChar_closeBrace []),
      ofText_cons isNameChar_closeBrace, ofText_nil]
    rfl
  have hhead : (solid text.toList).head? ≠ some '\x7b' := by rwa [solid, List.head?_filter]
  rw [parse_eq, parse_eq, htext, hsolid, htokens, List.head?_cons, if_pos rfl, List.tail_cons,
    List.getLast?_concat, if_pos rfl, List.tail_cons, List.dropLast_concat, if_neg hhead,
    ofText_add 0 1, readAll_moved]

/--
**Layout does not matter**: blanks put into a text, other than inside a name, change nothing of what
is read, and neither do braces around a text that does not begin with one. Only the offset of an
error grows by the bytes that are put in before its character.
-/
theorem parse_laid_out :
    (∀ (text : String) (l : Layout), l.source = text.toList → l.Loose →
        Mask.parse (String.ofList l.text) = (Mask.parse text).mapError
          (·.moved fun offset => offset + l.addedBefore offset)) ∧
      ∀ text : String, text.toList.find? (fun c => !isBlankChar c) ≠ some '\x7b' →
        Mask.parse ("\x7b" ++ text ++ "\x7d") = (Mask.parse text).mapError (·.moved (· + 1)) := by
  refine ⟨fun text l hsource hl => ?_, fun text => parse_braces⟩
  have h := parse_layout hl
  rwa [hsource, String.ofList_toList] at h

/-- A wide blank in front of a level moves the comma that is one too many by its three bytes. -/
theorem parse_laid_out_comma :
    let l : Layout := [.own 'a', .added '\u3000', .own '\x7b', .own '\x7d', .own ',', .own ',']
    l.source = "a\x7b\x7d,,".toList ∧ l.Loose ∧
      Mask.parse "a\x7b\x7d,," = .error (.unexpectedComma 4) ∧
      Mask.parse "a\u3000\x7b\x7d,," = .error (.unexpectedComma 7) ∧
      Mask.parse "\x7ba\x7b\x7d,,\x7d" = .error (.unexpectedComma 5) := by
  intro l
  have hsource : l.source = "a\x7b\x7d,,".toList := rfl
  have hloose : l.Loose := by
    intro front c back h
    obtain ⟨rfl, rfl, rfl⟩ : front = [.own 'a'] ∧ c = '\u3000' ∧
        back = [.own '\x7b', .own '\x7d', .own ',', .own ','] := by
      simpa [l, List.cons_eq_append_iff] using h
    exact ⟨by decide, by simp [Layout.source, isNameChar_openBrace]⟩
  have h : Mask.parse "a\x7b\x7d,," = .error (.unexpectedComma 4) := by decide +kernel
  refine ⟨hsource, hloose, h, ?_, ?_⟩
  · have := parse_laid_out.1 _ l hsource hloose
    rwa [h] at this
  · have := parse_laid_out.2 "a\x7b\x7d,," (by decide)
    rwa [h] at this

end Mask

end FieldMask
