import FieldMask.Proofs.Mask.Reading

/-!
# Canonical texts

`Mask.WellFormed` says which masks have a text: at every level the names are runs of name
characters other than that of the wildcard, and distinct. The canonical text of such a mask consists
of the tokens `Selector.tokensOfRow`, which the grammar writes for the selectors themselves, and
these stand for themselves. So the canonical text is read as the mask again. A mask that is read
from any text is well-formed, so no other mask has a text at all.
-/

namespace FieldMask

namespace Selector

/-- A name that a leaf or a nested selector can have. -/
def IsName (name : String) : Prop := IsRun name ∧ name ≠ wildcardName

mutual

/-- The names in a selector, at every level, are names of fields and distinct among siblings. -/
def WellFormed : Selector → Prop
  | .wildcard => True
  | .leaf name => IsName name
  | .nested name children => IsName name ∧ (names children).Nodup ∧ WellFormedEach children

/-- Every selector is well-formed. -/
def WellFormedEach : List Selector → Prop
  | [] => True
  | s :: rest => s.WellFormed ∧ WellFormedEach rest

end

end Selector

/-- The names in a mask, at every level, are names of fields and distinct among siblings. -/
def Mask.WellFormed (m : Mask) : Prop :=
  (Selector.names m.selectors).Nodup ∧ Selector.WellFormedEach m.selectors

namespace Selector

theorem wellFormedEach_iff {siblings : List Selector} :
    WellFormedEach siblings ↔ ∀ s ∈ siblings, s.WellFormed := by
  induction siblings with
  | nil => simp [WellFormedEach]
  | cons s rest ih => simp [WellFormedEach, ih]

/-! ## The tokens of canonical texts -/

mutual

/-- The tokens of a selector's text. -/
def tokens : Selector → List Token
  | .wildcard => [.name wildcardName]
  | .leaf name => [.name name]
  | .nested name children => .name name :: .openBrace :: (tokensOfRow children ++ [.closeBrace])

/-- The tokens of siblings with commas between them. -/
def tokensOfRow : List Selector → List Token
  | [] => []
  | s :: rest => s.tokens ++ tokensBehind rest

/-- The tokens of siblings with a comma in front of each. -/
def tokensBehind : List Selector → List Token
  | [] => []
  | s :: rest => .comma :: (s.tokens ++ tokensBehind rest)

end

/-- The text of siblings with commas between them. -/
def rowText (siblings : List Selector) : List Char :=
  (",".intercalate (canonicalEach siblings)).toList

/-- The text of siblings with a comma in front of each. -/
def textBehind (siblings : List Selector) : List Char :=
  siblings.flatMap fun s => ',' :: s.canonical.toList

theorem rowText_cons (s : Selector) (rest : List Selector) :
    rowText (s :: rest) = s.canonical.toList ++ textBehind rest := by
  induction rest generalizing s with
  | nil => simp [rowText, textBehind, canonicalEach]
  | cons t rest ih =>
    have := ih t
    simp only [rowText, canonicalEach] at this
    simp [rowText, canonicalEach, String.intercalate_cons_cons, this, textBehind]

theorem toList_canonical_nested (name : String) (children : List Selector) :
    (nested name children).canonical.toList
      = name.toList ++ '\x7b' :: (rowText children ++ ['\x7d']) := by
  simp [canonical, rowText]

theorem toList_canonicalList (siblings : List Selector) :
    (canonicalList siblings).toList = '\x7b' :: (rowText siblings ++ ['\x7d']) := by
  simp [canonicalList, rowText]

theorem endsName_textBehind (siblings : List Selector) : EndsName (textBehind siblings) := by
  cases siblings with
  | nil => exact endsName_nil
  | cons s rest => exact endsName_cons isNameChar_comma _

theorem isRun_wildcardName : IsRun wildcardName := by
  have htext : wildcardName.toList = ['*'] := rfl
  have hstar : isNameChar '*' = true := by decide
  rw [IsRun, htext]
  exact ⟨List.cons_ne_nil _ _, List.forall_mem_singleton.2 hstar⟩

mutual

theorem lexes_canonical : ∀ {s : Selector}, s.WellFormed → Lexes s.canonical.toList s.tokens
  | .wildcard, _ => isRun_wildcardName.lexes
  | .leaf _, h => h.1.lexes
  | .nested name children, h => by
    rw [toList_canonical_nested]
    have hrow := (lexes_rowText h.2.2).append (.closeBrace .nil)
      (endsName_cons isNameChar_closeBrace _)
    exact h.1.1.lexes.append (.openBrace hrow) (endsName_cons isNameChar_openBrace _)

theorem lexes_rowText : ∀ {siblings : List Selector}, WellFormedEach siblings →
    Lexes (rowText siblings) (tokensOfRow siblings)
  | [], _ => .nil
  | s :: rest, h => by
    rw [rowText_cons]
    exact (lexes_canonical h.1).append (lexes_textBehind h.2) (endsName_textBehind rest)

theorem lexes_textBehind : ∀ {siblings : List Selector}, WellFormedEach siblings →
    Lexes (textBehind siblings) (tokensBehind siblings)
  | [], _ => .nil
  | _ :: rest, h =>
    .comma ((lexes_canonical h.1).append (lexes_textBehind h.2) (endsName_textBehind rest))

end

/-! ## Canonical tokens are written for the selectors themselves -/

mutual

theorem writes_tokens : ∀ {s : Selector}, s.WellFormed → Mask.WritesItem s s.tokens
  | .wildcard, _ => .wildcard
  | .leaf _, h => .leaf h.2
  | .nested _ _, h => .nested h.1.2 (writes_tokensOfRow h.2.2)

theorem writes_tokensOfRow : ∀ {siblings : List Selector}, WellFormedEach siblings →
    Mask.Writes siblings (tokensOfRow siblings)
  | [], _ => .none
  | s :: rest, h => by
    have := writes_tokensBehind (.one (writes_tokens h.1)) h.2
    exact .row this

theorem writes_tokensBehind : ∀ {before siblings : List Selector} {ts : List Token},
    Mask.WritesRow before ts → WellFormedEach siblings →
    Mask.WritesRow (before ++ siblings) (ts ++ tokensBehind siblings)
  | before, [], ts, hbefore, _ => by
    simpa [tokensBehind] using hbefore
  | before, s :: rest, ts, hbefore, h => by
    have := writes_tokensBehind (.nextComma hbefore (writes_tokens h.1)) h.2
    simpa [tokensBehind] using this

end

mutual

/-- A well-formed selector stands for itself. -/
theorem denote_of_wellFormed : ∀ {s : Selector}, s.WellFormed → s.denote = s
  | .wildcard, _ => rfl
  | .leaf _, _ => rfl
  | .nested name children, h => by
    rw [denote, denoteFrom_of_wellFormed [] h.2.1 h.2.2, List.nil_append]

theorem denoteFrom_of_wellFormed : ∀ (siblings : List Selector) {written : List Selector},
    (names (siblings ++ written)).Nodup → WellFormedEach written →
    denoteFrom siblings written = siblings ++ written
  | siblings, [], _, _ => by rw [denoteFrom, List.append_nil]
  | siblings, s :: rest, hnames, h => by
    have hs : s.name ∉ names siblings := by
      rw [names_append, names_cons] at hnames
      exact fun hs => (List.nodup_append.1 hnames).2.2 _ hs _ List.mem_cons_self rfl
    have happend : siblings ++ s :: rest = (siblings ++ [s]) ++ rest := by simp
    rw [denoteFrom, denote_of_wellFormed h.1, place, if_neg hs, happend]
    exact denoteFrom_of_wellFormed _ (happend ▸ hnames) h.2

end

/-! ## What is read is well-formed -/

theorem wellFormedEach_place {siblings : List Selector} {s : Selector}
    (h : WellFormedEach siblings) (hs : s.WellFormed) : WellFormedEach (place siblings s) := by
  rw [wellFormedEach_iff] at h ⊢
  unfold place
  split
  · intro t ht
    obtain ⟨u, hu, rfl⟩ := List.mem_map.1 ht
    split
    · exact hs
    · exact h u hu
  · intro t ht
    rcases List.mem_append.1 ht with ht | ht
    · exact h t ht
    · exact List.mem_singleton.1 ht ▸ hs

theorem wellFormedEach_denoteFrom {siblings written : List Selector}
    (h : WellFormedEach siblings) (hw : ∀ s ∈ written, s.denote.WellFormed) :
    WellFormedEach (denoteFrom siblings written) := by
  induction written generalizing siblings with
  | nil => exact h
  | cons s rest ih =>
    exact ih (wellFormedEach_place h (hw s List.mem_cons_self))
      fun t ht => hw t (List.mem_cons_of_mem _ ht)

end Selector

namespace Mask

mutual

/-- An item whose names are runs of name characters stands for a well-formed selector. -/
theorem WritesItem.wellFormed : ∀ {s : Selector} {ts : List Token}, WritesItem s ts →
    (∀ name, .name name ∈ ts → IsRun name) → s.denote.WellFormed
  | _, _, .wildcard, _ => trivial
  | _, _, .leaf hne, h => ⟨h _ List.mem_cons_self, hne⟩
  | _, _, .nested hne hitems, h => by
    have hchildren := Writes.wellFormed hitems fun name hn => h name (by simp [hn])
    exact ⟨⟨h _ List.mem_cons_self, hne⟩, Selector.nodup_names_denoteAll _,
      Selector.wellFormedEach_denoteFrom trivial hchildren⟩

theorem WritesRow.wellFormed : ∀ {items : List Selector} {ts : List Token}, WritesRow items ts →
    (∀ name, .name name ∈ ts → IsRun name) → ∀ s ∈ items, s.denote.WellFormed
  | _, _, .one hs, h => by
    have hs := WritesItem.wellFormed hs h
    intro s hmem
    exact List.mem_singleton.1 hmem ▸ hs
  | _, _, .next hrow hs, h | _, _, .nextComma hrow hs, h => by
    have hrow := WritesRow.wellFormed hrow fun name hn => h name (by simp [hn])
    have hs := WritesItem.wellFormed hs fun name hn => h name (by simp [hn])
    intro s hmem
    rcases List.mem_append.1 hmem with hmem | hmem
    · exact hrow s hmem
    · exact List.mem_singleton.1 hmem ▸ hs

theorem Writes.wellFormed : ∀ {items : List Selector} {ts : List Token}, Writes items ts →
    (∀ name, .name name ∈ ts → IsRun name) → ∀ s ∈ items, s.denote.WellFormed
  | _, _, .none, _ => by simp
  | _, _, .row hrow, h => WritesRow.wellFormed hrow h
  | _, _, .comma hrow, h => WritesRow.wellFormed hrow fun name hn => h name (by simp [hn])

end

theorem wellFormed_of_parse {text : String} {m : Mask} (h : Mask.parse text = .ok m) :
    m.WellFormed := by
  obtain ⟨chars, items, -, hitems, rfl⟩ := parse_eq_ok_iff.1 h
  have hruns : ∀ name, Token.name name ∈ tokensOf chars → IsRun name := fun _ =>
    (lexes_iff.2 rfl : Lexes chars _).isRun
  exact ⟨Selector.nodup_names_denoteAll items,
    Selector.wellFormedEach_denoteFrom trivial (hitems.wellFormed hruns)⟩

/-! ## Canonical texts are read back -/

theorem trim_braces (inner : List Char) :
    trim ('\x7b' :: (inner ++ ['\x7d'])) = '\x7b' :: (inner ++ ['\x7d']) := by
  have hopen : isBlankChar '\x7b' = false := by decide
  have hclose : isBlankChar '\x7d' = false := by decide
  simp [trim, trimStart, trimEnd, hopen, hclose]

theorem parse_canonical {m : Mask} (h : m.WellFormed) : Mask.parse m.canonical = .ok m := by
  refine parse_eq_ok_iff.2 ⟨Selector.rowText m.selectors, m.selectors, ?_, ?_, ?_⟩
  · right
    rw [canonical, Selector.toList_canonicalList, trim_braces]
  · rw [lexes_iff.1 (Selector.lexes_rowText h.2)]
    exact Selector.writes_tokensOfRow h.2
  · rw [Selector.denoteAll, Selector.denoteFrom_of_wellFormed [] h.1 h.2, List.nil_append]

/--
**The canonical text of a mask is read as that mask just if it is well-formed**, and so it is for
every mask that is read from a text.
-/
theorem parse_canonical_iff :
    (∀ m : Mask, Mask.parse m.canonical = .ok m ↔ m.WellFormed) ∧
      ∀ (text : String) (m : Mask), Mask.parse text = .ok m →
        m.WellFormed ∧ Mask.parse m.canonical = .ok m :=
  ⟨fun _ => ⟨wellFormed_of_parse, parse_canonical⟩, fun _ _ h =>
    ⟨wellFormed_of_parse h, parse_canonical (wellFormed_of_parse h)⟩⟩

/-- A name that is written twice keeps the later of its selections. -/
theorem parse_canonical_repeated :
    let m : Mask := ⟨[.nested "a" [.leaf "c", .wildcard], .leaf "b"]⟩
    Mask.parse " a{b} b,a{c *,}" = .ok m ∧ m.WellFormed ∧ Mask.parse m.canonical = .ok m := by
  intro m
  have h : Mask.parse " a{b} b,a{c *,}" = .ok m := by decide +kernel
  exact ⟨h, parse_canonical_iff.2 _ m h⟩

end Mask

end FieldMask
