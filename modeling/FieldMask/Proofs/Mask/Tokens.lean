import FieldMask.Mask.Token

/-!
# The token stream of a text

`Lexes` says which tokens a text consists of, rule by rule: braces and commas are tokens, a run of
name characters that no name character follows is a name, and every other character is skipped.
`lexes_iff` says that the tokens that `Lexeme.ofText` reads are those and no others, and
`Lexes.append` that texts may be put together where no name would run on.
-/

namespace FieldMask

/-- The tokens of a text, without their offsets. -/
def tokensOf (text : List Char) : List Token := (Lexeme.ofText 0 text).map Lexeme.token

/-- The first character of a text, if it has one, is no name character. -/
def EndsName (text : List Char) : Prop := ∀ c ∈ text.head?, isNameChar c = false

/-- The text consists of the tokens and of characters that are skipped. -/
inductive Lexes : List Char → List Token → Prop
  | nil : Lexes [] []
  | openBrace {rest ts} : Lexes rest ts → Lexes ('\x7b' :: rest) (.openBrace :: ts)
  | closeBrace {rest ts} : Lexes rest ts → Lexes ('\x7d' :: rest) (.closeBrace :: ts)
  | comma {rest ts} : Lexes rest ts → Lexes (',' :: rest) (.comma :: ts)
  | skip {c rest ts} : isNameChar c = false → c ≠ '\x7b' → c ≠ '\x7d' → c ≠ ',' →
      Lexes rest ts → Lexes (c :: rest) ts
  /-- A name is not empty and goes on for as long as there are name characters. -/
  | name {run rest ts} : run ≠ [] → (∀ c ∈ run, isNameChar c = true) → EndsName rest →
      Lexes rest ts → Lexes (run ++ rest) (.name (String.ofList run) :: ts)

/-! ## Reading one token -/

theorem isNameChar_openBrace : isNameChar '\x7b' = false := by decide

theorem isNameChar_closeBrace : isNameChar '\x7d' = false := by decide

theorem isNameChar_comma : isNameChar ',' = false := by decide

theorem endsName_nil : EndsName [] := by simp [EndsName]

theorem endsName_cons {c : Char} (h : isNameChar c = false) (rest : List Char) :
    EndsName (c :: rest) := by simpa [EndsName] using h

theorem endsName_dropWhile (text : List Char) : EndsName (text.dropWhile isNameChar) := by
  intro c hc
  have := List.head?_dropWhile_not isNameChar text
  rw [Option.mem_def.1 hc] at this
  simpa using this

theorem takeWhile_append_of_endsName {run rest : List Char}
    (hrun : ∀ c ∈ run, isNameChar c = true) (hrest : EndsName rest) :
    (run ++ rest).takeWhile isNameChar = run ∧ (run ++ rest).dropWhile isNameChar = rest := by
  have htake : rest.takeWhile isNameChar = [] ∧ rest.dropWhile isNameChar = rest := by
    cases rest with
    | nil => exact ⟨rfl, rfl⟩
    | cons c rest =>
      have hc : isNameChar c = false := hrest c rfl
      simp [hc]
  rw [List.takeWhile_append_of_pos hrun, List.dropWhile_append_of_pos hrun, htake.1, htake.2]
  simp

/-! ## Reading all tokens -/

theorem ofText_name (offset : Nat) {run rest : List Char} (hne : run ≠ [])
    (hrun : ∀ c ∈ run, isNameChar c = true) (hrest : EndsName rest) :
    Lexeme.ofText offset (run ++ rest)
      = ⟨.name (String.ofList run), offset⟩ :: Lexeme.ofText (offset + utf8Length run) rest := by
  cases run with
  | nil => exact absurd rfl hne
  | cons c run =>
    obtain ⟨htake, hdrop⟩ :=
      takeWhile_append_of_endsName (fun d hd => hrun d (List.mem_cons_of_mem _ hd)) hrest
    rw [List.cons_append, Lexeme.ofText]
    simp only [hrun c List.mem_cons_self, if_true, htake, hdrop]

theorem ofText_of_lexes {text : List Char} {ts : List Token} (h : Lexes text ts) (offset : Nat) :
    (Lexeme.ofText offset text).map Lexeme.token = ts := by
  induction h generalizing offset with
  | nil => rw [Lexeme.ofText]; rfl
  | openBrace _ ih =>
    rw [Lexeme.ofText]
    simp [isNameChar_openBrace, ih]
  | closeBrace _ ih =>
    rw [Lexeme.ofText]
    simp [isNameChar_closeBrace, ih]
  | comma _ ih =>
    rw [Lexeme.ofText]
    simp [isNameChar_comma, ih]
  | skip hname hopen hclose hcomma _ ih =>
    rw [Lexeme.ofText]
    simp [hname, hopen, hclose, hcomma, ih]
  | name hne hrun hrest _ ih =>
    rw [ofText_name offset hne hrun hrest, List.map_cons, ih]

theorem lexes_ofText (text : List Char) (offset : Nat) :
    Lexes text ((Lexeme.ofText offset text).map Lexeme.token) := by
  fun_induction Lexeme.ofText offset text with
  | case1 => exact .nil
  | case2 offset c rest hname run ih =>
    have hrun : ∀ d ∈ run, isNameChar d = true := by
      intro d hd
      rcases List.mem_cons.1 hd with rfl | hd
      · exact hname
      · exact List.all_eq_true.1 List.all_takeWhile d hd
    have := Lexes.name (List.cons_ne_nil _ _) hrun (endsName_dropWhile rest) ih
    simpa [run, List.takeWhile_append_dropWhile] using this
  | case3 offset rest _ after ih => exact .openBrace ih
  | case4 offset rest _ after _ ih => exact .closeBrace ih
  | case5 offset rest _ after _ _ ih => exact .comma ih
  | case6 offset c rest hname after hopen hclose hcomma ih =>
    exact .skip (by simpa using hname) hopen hclose hcomma ih

/-- A text consists of the tokens that are read from it, and of no others. -/
theorem lexes_iff {text : List Char} {ts : List Token} : Lexes text ts ↔ tokensOf text = ts :=
  ⟨fun h => ofText_of_lexes h 0, fun h => h ▸ lexes_ofText text 0⟩

theorem map_token_ofText (offset : Nat) (text : List Char) :
    (Lexeme.ofText offset text).map Lexeme.token = tokensOf text :=
  ofText_of_lexes (lexes_iff.2 rfl) offset

/-! ## Putting texts together -/

/-- Texts put together have the tokens of both if the second does not go on with a name. -/
theorem Lexes.append {a b : List Char} {ts us : List Token} (ha : Lexes a ts) (hb : Lexes b us)
    (h : EndsName b) : Lexes (a ++ b) (ts ++ us) := by
  induction ha with
  | nil => exact hb
  | openBrace _ ih => exact .openBrace ih
  | closeBrace _ ih => exact .closeBrace ih
  | comma _ ih => exact .comma ih
  | skip hname hopen hclose hcomma _ ih => exact .skip hname hopen hclose hcomma ih
  | name hne hrun hrest _ ih =>
    rename_i run rest ts _
    rw [List.append_assoc]
    refine .name hne hrun ?_ ih
    cases rest with
    | nil => exact h
    | cons c rest => exact hrest

/-- The text of a name, if it is one: not empty and of name characters only. -/
def IsRun (name : String) : Prop := name.toList ≠ [] ∧ ∀ c ∈ name.toList, isNameChar c = true

theorem IsRun.lexes {name : String} (h : IsRun name) : Lexes name.toList [.name name] := by
  have := Lexes.name h.1 h.2 endsName_nil .nil
  simpa using this

/-- Every name among the tokens of a text is a run of name characters. -/
theorem Lexes.isRun {text : List Char} {ts : List Token} (h : Lexes text ts) {name : String}
    (hn : .name name ∈ ts) : IsRun name := by
  induction h with
  | nil => simp at hn
  | openBrace _ ih | closeBrace _ ih | comma _ ih => exact ih (by simpa using hn)
  | skip _ _ _ _ _ ih => exact ih hn
  | name hne hrun _ _ ih =>
    rcases List.mem_cons.1 hn with hn | hn
    · rw [Token.name.inj hn]
      exact ⟨by simpa using hne, by simpa using hrun⟩
    · exact ih hn

end FieldMask
