import FieldMask.Proofs.Pointer

/-!
# Decoding the texts of places

RFC 6901 has a segment decoded by two replacements in its whole text, of `~1` by a slash and then of
`~0` by a tilde, and every tilde has to be one of these two. The replacements undo those by which a
segment is escaped: of tildes first, and then of slashes (`toList_escape_eq_writeOut`). The order
matters, since each of the four can bring about what another one looks for. Once tildes are written
out, each of them has a zero behind it, so the first replacement back finds the former slashes and
nothing else (`bringBack_slashes`), and the second one finds the former tildes
(`bringBack_tildes`). They are undone by the others in turn where a text has no slashes and all of
its tildes escape (`writeOut_bringBack`).

Hence a list of segments is what its text decodes to (`segmentsOf?_foldl_join`), and a text reads as
a place just if it is the text of that place (`ofText?_eq_some_iff`).
-/

namespace FieldMask

/-! ## Replacing in a text -/

/--
The text with another one in place of each occurrence of a word, which is given by its first
character and the others. Occurrences are looked for from the left and do not overlap.
-/
def replaceAll (first : Char) (others new : List Char) : List Char → List Char
  | [] => []
  | c :: rest =>
    if c = first ∧ others <+: rest then
      new ++ replaceAll first others new (rest.drop others.length)
    else c :: replaceAll first others new rest
termination_by text => text.length
decreasing_by
  · simp only [List.length_drop, List.length_cons]
    omega
  · simp

section Replace

variable {first c : Char} {others new rest : List Char}

theorem replaceAll_nil : replaceAll first others new [] = [] := by
  rw [replaceAll]

/-- An occurrence of the word at the front is replaced. -/
theorem replaceAll_word (first : Char) (others new rest : List Char) :
    replaceAll first others new (first :: (others ++ rest))
      = new ++ replaceAll first others new rest := by
  rw [replaceAll, if_pos ⟨rfl, List.prefix_append others rest⟩, List.drop_left]

/-- A character at the front is kept if it is not the first one of the word. -/
theorem replaceAll_of_ne (hc : c ≠ first) :
    replaceAll first others new (c :: rest) = c :: replaceAll first others new rest := by
  rw [replaceAll, if_neg fun h => hc h.1]

/-- A character at the front is kept if the others of the word do not follow. -/
theorem replaceAll_of_not_prefix (h : ¬ others <+: rest) :
    replaceAll first others new (c :: rest) = c :: replaceAll first others new rest := by
  rw [replaceAll, if_neg fun h' => h h'.2]

end Replace

namespace Pointer

/-! ## Escaping by replacements -/

/-- The text with a character written as a tilde and a digit. -/
def writeOut (c digit : Char) (text : List Char) : List Char := replaceAll c [] ['~', digit] text

/-- The text with a character in place of a tilde and a digit. -/
def bringBack (c digit : Char) (text : List Char) : List Char := replaceAll '~' [digit] [c] text

variable {c d digit : Char} {rest : List Char}

theorem writeOut_nil : writeOut c digit [] = [] := replaceAll_nil

theorem writeOut_self : writeOut c digit (c :: rest) = '~' :: digit :: writeOut c digit rest :=
  replaceAll_word c [] ['~', digit] rest

theorem writeOut_of_ne (h : d ≠ c) : writeOut c digit (d :: rest) = d :: writeOut c digit rest :=
  replaceAll_of_ne h

theorem bringBack_nil : bringBack c digit [] = [] := replaceAll_nil

theorem bringBack_marked : bringBack c digit ('~' :: digit :: rest) = c :: bringBack c digit rest :=
  replaceAll_word '~' [digit] [c] rest

theorem bringBack_of_ne (h : d ≠ '~') :
    bringBack c digit (d :: rest) = d :: bringBack c digit rest :=
  replaceAll_of_ne h

/-- A tilde before another digit stays a tilde. -/
theorem bringBack_tilde (h : d ≠ digit) :
    bringBack c digit ('~' :: d :: rest) = '~' :: bringBack c digit (d :: rest) := by
  refine replaceAll_of_not_prefix fun hprefix => h ?_
  rw [List.cons_prefix_cons] at hprefix
  exact hprefix.1.symm

/-- A segment is escaped by two replacements, of tildes and then of slashes. -/
theorem toList_escape_eq_writeOut (segment : String) :
    (escape segment).toList = writeOut '/' '1' (writeOut '~' '0' segment.toList) := by
  rw [toList_escape]
  induction segment.toList with
  | nil => rw [writeOut_nil, writeOut_nil, List.flatMap_nil]
  | cons c rest ih =>
    rw [List.flatMap_cons, ih, escapeChar]
    split_ifs with htilde hslash
    · rw [htilde, writeOut_self, writeOut_of_ne (by decide), writeOut_of_ne (by decide)]
      rfl
    · rw [hslash, writeOut_of_ne (by decide), writeOut_self]
      rfl
    · rw [writeOut_of_ne htilde, writeOut_of_ne hslash]
      rfl

/-! ## Replacing back -/

/--
Slashes come back where they were. The tildes of the text have a zero behind them by then, so none
of them is taken for the mark of a slash.
-/
theorem bringBack_slashes (text : List Char) :
    bringBack '/' '1' (writeOut '/' '1' (writeOut '~' '0' text)) = writeOut '~' '0' text := by
  induction text with
  | nil => rw [writeOut_nil, writeOut_nil, bringBack_nil]
  | cons c rest ih =>
    by_cases htilde : c = '~'
    · rw [htilde, writeOut_self, writeOut_of_ne (by decide), writeOut_of_ne (by decide),
        bringBack_tilde (by decide), bringBack_of_ne (by decide), ih]
    · rw [writeOut_of_ne htilde]
      by_cases hslash : c = '/'
      · rw [hslash, writeOut_self, bringBack_marked, ih]
      · rw [writeOut_of_ne hslash, bringBack_of_ne htilde, ih]

/-- Tildes come back where they were, since each of them was written out. -/
theorem bringBack_tildes (text : List Char) : bringBack '~' '0' (writeOut '~' '0' text) = text := by
  induction text with
  | nil => rw [writeOut_nil, bringBack_nil]
  | cons c rest ih =>
    by_cases htilde : c = '~'
    · rw [htilde, writeOut_self, bringBack_marked, ih]
    · rw [writeOut_of_ne htilde, bringBack_of_ne htilde, ih]

/-! ## Decoding -/

/-- Whether every tilde of a text has a zero or a one behind it. -/
def isEscaped : List Char → Bool
  | '~' :: '0' :: rest => isEscaped rest
  | '~' :: '1' :: rest => isEscaped rest
  | '~' :: _ => false
  | _ :: rest => isEscaped rest
  | [] => true

/-- The segment that a part of the text of a place writes, if each of its tildes escapes. -/
def decode? (part : List Char) : Option String :=
  if isEscaped part then some (String.ofList (bringBack '~' '0' (bringBack '/' '1' part))) else none

theorem isEscaped_of_ne (h : d ≠ '~') : isEscaped (d :: rest) = isEscaped rest := by
  rw [isEscaped]
  · exact fun _ heq => absurd heq h
  · exact fun _ heq => absurd heq h
  · exact h

theorem isEscaped_escape (segment : String) : isEscaped (escape segment).toList = true := by
  rw [toList_escape]
  induction segment.toList with
  | nil => rfl
  | cons c rest ih =>
    rw [List.flatMap_cons, escapeChar]
    split_ifs with htilde hslash
    · exact ih
    · exact ih
    · exact (isEscaped_of_ne htilde).trans ih

/-- What a segment is written as decodes to that segment. -/
theorem decode?_escape (segment : String) : decode? (escape segment).toList = some segment := by
  rw [decode?, if_pos (isEscaped_escape segment), toList_escape_eq_writeOut, bringBack_slashes,
    bringBack_tildes, String.ofList_toList]

/-- A text without slashes is written out as it was, if each of its tildes escapes. -/
theorem writeOut_bringBack {text : List Char} (hslash : '/' ∉ text)
    (h : isEscaped text = true) :
    writeOut '/' '1' (writeOut '~' '0' (bringBack '~' '0' (bringBack '/' '1' text))) = text := by
  induction text using isEscaped.induct with
  | case1 rest ih =>
    have hrest : '/' ∉ rest := fun hmem => hslash (by simp [hmem])
    have hback : bringBack '/' '1' ('~' :: '0' :: rest) = '~' :: '0' :: bringBack '/' '1' rest := by
      rw [bringBack_tilde (by decide), bringBack_of_ne (by decide)]
    rw [hback, bringBack_marked, writeOut_self, writeOut_of_ne (by decide),
      writeOut_of_ne (by decide), ih hrest h]
  | case2 rest ih =>
    have hrest : '/' ∉ rest := fun hmem => hslash (by simp [hmem])
    rw [bringBack_marked, bringBack_of_ne (by decide), writeOut_of_ne (by decide), writeOut_self,
      ih hrest h]
  | case3 rest hzero hone =>
    rw [isEscaped] at h
    · cases h
    · exact hzero
    · exact hone
  | case4 c rest hzero hone htilde ih =>
    obtain ⟨hc, hrest⟩ := not_or.1 fun hmem => hslash (List.mem_cons.2 hmem)
    rw [isEscaped_of_ne htilde] at h
    rw [bringBack_of_ne htilde, bringBack_of_ne htilde, writeOut_of_ne htilde,
      writeOut_of_ne (Ne.symm hc), ih hrest h]
  | case5 => rw [bringBack_nil, bringBack_nil, writeOut_nil, writeOut_nil]

/-- A part of a text decodes to the segment that is written so, and to no other one. -/
theorem decode?_eq_some_iff {part : List Char} (hslash : '/' ∉ part) {segment : String} :
    decode? part = some segment ↔ (escape segment).toList = part := by
  constructor
  · intro h
    obtain ⟨hescaped, h⟩ := Option.ite_none_right_eq_some.1 h
    obtain rfl := Option.some.inj h
    rw [toList_escape_eq_writeOut, String.toList_ofList, writeOut_bringBack hslash hescaped]
  · rintro rfl
    exact decode?_escape segment

/-! ## Texts of segments -/

/--
The segments that a text writes, each of them behind a slash; `none` if the text is not empty and
does not begin with a slash, or if some tilde in it escapes nothing.
-/
def segmentsOf? (text : String) : Option (List String) :=
  match splitAt '/' text.toList with
  | [] :: parts => parts.mapM decode?
  | _ => none

/-- The text of segments has nothing before its first slash, and then their escaped texts. -/
theorem splitAt_foldl_join (segments : List String) :
    splitAt '/' (segments.foldl join "").toList
      = [] :: segments.map fun segment => (escape segment).toList := by
  rw [toList_foldl_join]
  cases segments with
  | nil => rfl
  | cons first rest =>
    rw [List.flatMap_cons, List.cons_append]
    exact (splitAt_cons_self '/' _).trans (congrArg _ (splitAt_segments first rest))

/-- Parts without slashes decode to segments just if they are what these are written as. -/
theorem mapM_decode?_eq_some_iff {parts : List (List Char)} {segments : List String}
    (hslash : ∀ part ∈ parts, '/' ∉ part) :
    parts.mapM decode? = some segments
      ↔ (segments.map fun segment => (escape segment).toList) = parts := by
  induction parts generalizing segments with
  | nil =>
    rw [List.mapM_nil, List.map_eq_nil_iff]
    exact ⟨fun h => (Option.some.inj h).symm, fun h => congrArg some h.symm⟩
  | cons part rest ih =>
    obtain ⟨hpart, hrest⟩ := List.forall_mem_cons.1 hslash
    simp only [List.mapM_cons, Option.bind_eq_bind, Option.bind_eq_some_iff,
      decode?_eq_some_iff hpart, ih hrest, Option.pure_def, Option.some.injEq,
      List.map_eq_cons_iff]
    constructor
    · rintro ⟨first, hfirst, others, hothers, rfl⟩
      exact ⟨first, others, rfl, hfirst, hothers⟩
    · rintro ⟨first, others, rfl, hfirst, hothers⟩
      exact ⟨first, hfirst, others, hothers, rfl⟩

/-- A text is read as the segments whose text it is, and as no others. -/
theorem segmentsOf?_eq_some_iff {text : String} {segments : List String} :
    segmentsOf? text = some segments ↔ segments.foldl join "" = text := by
  have hslash : ∀ part ∈ splitAt '/' text.toList, '/' ∉ part :=
    fun part => not_mem_of_mem_splitAt
  constructor
  · intro h
    unfold segmentsOf? at h
    split at h
    · rename_i parts hsplit
      rw [hsplit] at hslash
      have hparts := (mapM_decode?_eq_some_iff (List.forall_mem_cons.1 hslash).2).1 h
      refine String.toList_inj.1 (splitAt_injective '/' ?_)
      rw [splitAt_foldl_join, hparts, hsplit]
    · cases h
  · rintro rfl
    rw [splitAt_foldl_join] at hslash
    rw [segmentsOf?, splitAt_foldl_join]
    exact (mapM_decode?_eq_some_iff (List.forall_mem_cons.1 hslash).2).2 rfl

/-- The place that a text writes, if it writes one. -/
def ofText? (text : String) : Option Pointer := (segmentsOf? text).map Pointer.mk

/-- **A text reads as the place whose text it is**, and as no other one. -/
theorem ofText?_eq_some_iff {text : String} {p : Pointer} :
    ofText? text = some p ↔ p.text = text := by
  rw [ofText?, Option.map_eq_some_iff, Pointer.text, ← segmentsOf?_eq_some_iff]
  constructor
  · rintro ⟨segments, h, rfl⟩
    exact h
  · exact fun h => ⟨p.segments, h, rfl⟩

theorem text_injective : Function.Injective text := fun _ _ h =>
  Option.some.inj ((ofText?_eq_some_iff.2 rfl).symm.trans (ofText?_eq_some_iff.2 h.symm))

theorem ofText?_shown {p : Pointer} (h : p.segments ≠ []) : ofText? p.shown = some p := by
  rw [shown, if_neg (by simpa using h), ofText?_eq_some_iff]

/--
**Texts of places are unambiguous.** A segment is put to a text behind a slash, with its tildes and
then its slashes replaced, and any list of segments is what the text of it decodes to.
-/
theorem segmentsOf?_foldl_join :
    (∀ text segment : String, join text segment =
        text ++ "/" ++ String.ofList (writeOut '/' '1' (writeOut '~' '0' segment.toList))) ∧
      ∀ segments : List String, segmentsOf? (segments.foldl join "") = some segments := by
  constructor
  · intro text segment
    rw [join, ← toList_escape_eq_writeOut, String.ofList_toList]
  · exact fun segments => segmentsOf?_eq_some_iff.2 rfl

/-- Segments that look like escapes, and empty ones, keep their form. -/
example : segmentsOf? "/~01/a~1~0//" = some ["~1", "a/~", "", ""] := by decide +kernel

/-- A tilde that escapes nothing stands in no pointer. -/
example : segmentsOf? "/~~1" = none := by decide +kernel

end Pointer

end FieldMask
