import FieldMask.Proofs.Json.Meaning
import FieldMask.Proofs.Outcome
import FieldMask.Schema.Rule

/-!
# What schemas mean

A keyword of a schema is asked of the value that the schema is for, and so are the keywords of the
schemas that a composition or a reference leads to: `Schema.Has` gathers them. A value is accepted
if all of them hold, where a keyword about members or items holds if the schemas in it accept these.

A `Legible` schema has no keyword that cannot be read, and every reference in it is a known one. A
document is `Grounded` if known references lead to legible schemas in it, and never round in a
circle without going to a part of the value.
-/

namespace FieldMask

namespace Json

theorem sizeOf_get?_lt {v w : Json} {key : String} (h : v.get? key = some w) :
    sizeOf w < sizeOf v := by
  cases v with
  | obj members => exact sizeOf_lt_of_mem_members (Keyed.mem_of_lookup h)
  | _ => cases h

end Json

/-- Whether the keyword leads on to other schemas for the same value. -/
def Keyword.leadsOn : Keyword → Bool
  | .allOf _ | .reference _ => true
  | _ => false

namespace Schema

/--
The keyword is asked of the value that the schema is for: it is one of the schema itself, or of a
schema that a composition or a reference leads to.
-/
inductive Has (document : Json) : Schema → Keyword → Prop
  | own {list : List Keyword} {k : Keyword} (hk : k ∈ list) (hl : k.leadsOn = false) :
      Has document (.keywords list) k
  | allOf {list : List Keyword} {schemas : List Schema} {s : Schema} {k : Keyword}
      (hl : .allOf schemas ∈ list) (hs : s ∈ schemas) (h : Has document s k) :
      Has document (.keywords list) k
  | reference {list : List Keyword} {text : String} {target : Json} {k : Keyword}
      (hl : .reference text ∈ list) (ht : Reference.resolve document text = .ok target)
      (h : Has document (ofJson target) k) : Has document (.keywords list) k

/-- The reference leads on from the schema for the same value, before any other is followed. -/
inductive Refers : Schema → String → Prop
  | own {list : List Keyword} {text : String} (hl : .reference text ∈ list) :
      Refers (.keywords list) text
  | allOf {list : List Keyword} {schemas : List Schema} {s : Schema} {text : String}
      (hl : .allOf schemas ∈ list) (hs : s ∈ schemas) (h : Refers s text) :
      Refers (.keywords list) text

end Schema

mutual

/-- The value is what the schema asks for: every keyword that it has for the value holds. -/
def Schema.Accepts (q : Equality) (document : Json) (s : Schema) (v : Json) : Prop :=
  ∀ k, s.Has document k → k.Holds q document v
termination_by (sizeOf v, 1)

/-- What a keyword asks of a value. One that speaks of arrays or objects holds of other values. -/
def Keyword.Holds (q : Equality) (document : Json) (k : Keyword) (v : Json) : Prop :=
  match k with
  | .type wanted => v.hasType wanted = true
  | .types wanted => wanted.any v.hasType = true
  | .choices values => ∃ w ∈ values, q.same v w
  | .properties members => ∀ e ∈ members, ∀ w, v.get? e.1 = some w → e.2.Accepts q document w
  | .closed members => ∀ given, v = .obj given → ∀ m ∈ given,
      ∃ s, members.lookup m.1 = some s ∧ s.Accepts q document m.2
  | .additional members others => ∀ given, v = .obj given → ∀ m ∈ given,
      ((members.lookup m.1).getD others).Accepts q document m.2
  | .memberless => ∀ given, v = .obj given → given = []
  | .required names => ∀ given, v = .obj given → ∀ n ∈ names, n ∈ Keyed.keys given
  | .items s => ∀ items, v = .arr items → ∀ x ∈ items, s.Accepts q document x
  | .itemList schemas =>
    ∀ items, v = .arr items → ∀ p ∈ items.zip schemas, p.2.Accepts q document p.1
  | .leastItems count => ∀ items, v = .arr items → count ≤ items.length
  | .mostItems count => ∀ items, v = .arr items → items.length ≤ count
  | .uniqueItems => ∀ items, v = .arr items → q.unique items
  | .allOf _ | .reference _ => True
  | .malformed _ => False
termination_by (sizeOf v, 0)
decreasing_by
  · exact Prod.Lex.left _ _ (Json.sizeOf_get?_lt ‹_›)
  · subst_vars
    exact Prod.Lex.left _ _ (Json.sizeOf_lt_of_mem_members ‹_›)
  · subst_vars
    exact Prod.Lex.left _ _ (Json.sizeOf_lt_of_mem_members ‹_›)
  · subst_vars
    exact Prod.Lex.left _ _ (Json.sizeOf_lt_of_mem_items ‹_›)
  · subst_vars
    exact Prod.Lex.left _ _ (Json.sizeOf_lt_of_mem_items (List.of_mem_zip ‹_›).1)

end

namespace Schema

variable {q : Equality} {document v : Json}

/-! ## Keywords one by one -/

theorem Has.mono {list more : List Keyword} {k : Keyword} (h : Has document (.keywords list) k)
    (hl : list ⊆ more) : Has document (.keywords more) k := by
  cases h with
  | own hk hlead => exact .own (hl hk) hlead
  | allOf hmem hs h => exact .allOf (hl hmem) hs h
  | reference hmem ht h => exact .reference (hl hmem) ht h

theorem Refers.mono {list more : List Keyword} {text : String} (h : Refers (.keywords list) text)
    (hl : list ⊆ more) : Refers (.keywords more) text := by
  cases h with
  | own hmem => exact .own (hl hmem)
  | allOf hmem hs h => exact .allOf (hl hmem) hs h

/-- Each keyword that a schema has comes from one of those that are written in it. -/
theorem has_keywords_iff {list : List Keyword} {k : Keyword} :
    Has document (.keywords list) k ↔ ∃ k' ∈ list, Has document (.keywords [k']) k := by
  constructor
  · intro h
    cases h with
    | own hk hl => exact ⟨_, hk, .own List.mem_cons_self hl⟩
    | allOf hl hs h => exact ⟨_, hl, .allOf List.mem_cons_self hs h⟩
    | reference hl ht h => exact ⟨_, hl, .reference List.mem_cons_self ht h⟩
  · rintro ⟨k', hk', h⟩
    exact h.mono (List.cons_subset.2 ⟨hk', List.nil_subset _⟩)

theorem has_cons_iff {k' : Keyword} {rest : List Keyword} {k : Keyword} :
    Has document (.keywords (k' :: rest)) k ↔
      Has document (.keywords [k']) k ∨ Has document (.keywords rest) k := by
  rw [has_keywords_iff, List.exists_mem_cons_iff, ← has_keywords_iff]

theorem has_allOf_iff {schemas : List Schema} {k : Keyword} :
    Has document (.keywords [.allOf schemas]) k ↔ ∃ s ∈ schemas, s.Has document k := by
  constructor
  · intro h
    cases h with
    | own hk hl =>
      obtain rfl := List.mem_singleton.1 hk
      cases hl
    | allOf hl hs h =>
      obtain rfl := Keyword.allOf.inj (List.mem_singleton.1 hl)
      exact ⟨_, hs, h⟩
    | reference hl ht h => cases List.mem_singleton.1 hl
  · rintro ⟨s, hs, h⟩
    exact .allOf List.mem_cons_self hs h

theorem has_reference_iff {text : String} {target : Json}
    (ht : Reference.resolve document text = .ok target) {k : Keyword} :
    Has document (.keywords [.reference text]) k ↔ (ofJson target).Has document k := by
  constructor
  · intro h
    cases h with
    | own hk hl =>
      obtain rfl := List.mem_singleton.1 hk
      cases hl
    | allOf hl hs h => cases List.mem_singleton.1 hl
    | reference hl ht' h =>
      obtain rfl := Keyword.reference.inj (List.mem_singleton.1 hl)
      obtain rfl := Except.ok.inj (ht.symm.trans ht')
      exact h
  · exact fun h => .reference List.mem_cons_self ht h

theorem accepts_iff {s : Schema} :
    s.Accepts q document v ↔ ∀ k, s.Has document k → k.Holds q document v := by
  rw [Accepts]

theorem accepts_nil : (keywords []).Accepts q document v := by
  rw [accepts_iff]
  intro k hk
  obtain ⟨_, hmem, -⟩ := has_keywords_iff.1 hk
  cases hmem

theorem accepts_cons_iff {k : Keyword} {rest : List Keyword} :
    (keywords (k :: rest)).Accepts q document v ↔
      (keywords [k]).Accepts q document v ∧ (keywords rest).Accepts q document v := by
  simp only [accepts_iff, @has_cons_iff _ k rest, or_imp, forall_and]

theorem accepts_append_iff {list more : List Keyword} :
    (keywords (list ++ more)).Accepts q document v ↔
      (keywords list).Accepts q document v ∧ (keywords more).Accepts q document v := by
  induction list with
  | nil => simp [accepts_nil]
  | cons k rest ih =>
    rw [List.cons_append, accepts_cons_iff, ih, @accepts_cons_iff _ _ _ k rest, and_assoc]

/-- A schema of one keyword that leads nowhere accepts a value if the keyword holds. -/
theorem accepts_own_iff {k : Keyword} (hl : k.leadsOn = false) :
    (keywords [k]).Accepts q document v ↔ k.Holds q document v := by
  rw [accepts_iff]
  constructor
  · exact fun h => h k (.own List.mem_cons_self hl)
  · intro h k' hk'
    cases hk' with
    | own hk _ => exact List.mem_singleton.1 hk ▸ h
    | allOf hmem _ _ => cases List.mem_singleton.1 hmem ▸ hl
    | reference hmem _ _ => cases List.mem_singleton.1 hmem ▸ hl

theorem accepts_allOf_iff {schemas : List Schema} :
    (keywords [.allOf schemas]).Accepts q document v ↔ ∀ s ∈ schemas, s.Accepts q document v := by
  simp only [accepts_iff, has_allOf_iff]
  exact ⟨fun h s hs k hk => h k ⟨s, hs, hk⟩, fun h k ⟨s, hs, hk⟩ => h s hs k hk⟩

theorem accepts_reference_iff {text : String} {target : Json}
    (ht : Reference.resolve document text = .ok target) :
    (keywords [.reference text]).Accepts q document v ↔ (ofJson target).Accepts q document v := by
  simp only [accepts_iff, has_reference_iff ht]

end Schema

/-! ## Legible schemas -/

mutual

/-- The schema can be read and refuses no value outright; it refers to what is known alone. -/
inductive Schema.Legible (known : String → Prop) : Schema → Prop
  | always : Schema.Legible known (.always true)
  | keywords {list : List Keyword} (h : ∀ k ∈ list, Keyword.Legible known k) :
      Schema.Legible known (.keywords list)

/-- The keyword can be read, and the schemas in it are legible. -/
inductive Keyword.Legible (known : String → Prop) : Keyword → Prop
  | type (wanted : SchemaType) : Keyword.Legible known (.type wanted)
  | types (wanted : List SchemaType) : Keyword.Legible known (.types wanted)
  | choices (values : List Json) : Keyword.Legible known (.choices values)
  | properties {members : List (String × Schema)} (h : ∀ e ∈ members, Schema.Legible known e.2) :
      Keyword.Legible known (.properties members)
  | closed {members : List (String × Schema)} (h : ∀ e ∈ members, Schema.Legible known e.2) :
      Keyword.Legible known (.closed members)
  | additional {members : List (String × Schema)} {others : Schema}
      (h : ∀ e ∈ members, Schema.Legible known e.2) (ho : Schema.Legible known others) :
      Keyword.Legible known (.additional members others)
  | memberless : Keyword.Legible known .memberless
  | required (names : List String) : Keyword.Legible known (.required names)
  | items {s : Schema} (h : Schema.Legible known s) : Keyword.Legible known (.items s)
  | itemList {schemas : List Schema} (h : ∀ s ∈ schemas, Schema.Legible known s) :
      Keyword.Legible known (.itemList schemas)
  | leastItems (count : Nat) : Keyword.Legible known (.leastItems count)
  | mostItems (count : Nat) : Keyword.Legible known (.mostItems count)
  | uniqueItems : Keyword.Legible known .uniqueItems
  | allOf {schemas : List Schema} (h : ∀ s ∈ schemas, Schema.Legible known s) :
      Keyword.Legible known (.allOf schemas)
  | reference {text : String} (h : known text) : Keyword.Legible known (.reference text)

end

/--
Known references lead to legible schemas of the document. The references that lead on from there
rank below, and no reference ranks as high as the number of references in the document.
-/
structure Schema.Grounded (document : Json) (known : String → Prop) (rank : String → Nat) :
    Prop where
  leads : ∀ {text}, known text → ∃ target, Reference.resolve document text = .ok target ∧
    target.ownReference? ≠ some text ∧ (ofJson target).Legible known ∧
      ∀ next, (ofJson target).Refers next → rank next < rank text
  bounded : ∀ {text}, known text → rank text < document.referenceTexts.length

namespace Schema

variable {document : Json} {known : String → Prop} {rank : String → Nat}

theorem Legible.keyword {list : List Keyword} (h : Legible known (.keywords list)) :
    ∀ k ∈ list, k.Legible known := by
  cases h with
  | keywords h => exact h

theorem Legible.schemas {list : List Keyword} (h : Legible known (.keywords list))
    {schemas : List Schema} (hl : .allOf schemas ∈ list) : ∀ s ∈ schemas, s.Legible known := by
  cases h.keyword _ hl with
  | allOf h => exact h

theorem Legible.text {list : List Keyword} (h : Legible known (.keywords list)) {text : String}
    (hl : .reference text ∈ list) : known text := by
  cases h.keyword _ hl with
  | reference h => exact h

/-- A reference that leads on from a legible schema is known. -/
theorem Legible.known_of_refers {s : Schema} (h : s.Legible known) {text : String}
    (hr : s.Refers text) : known text := by
  induction hr with
  | own hl => exact h.text hl
  | allOf hl hs _ ih => exact ih (h.schemas hl _ hs)

/-- The references that lead on from a legible schema rank below the number of all references. -/
theorem Grounded.rank_lt (hg : Grounded document known rank) {s : Schema} (h : s.Legible known)
    (text : String) (hr : s.Refers text) : rank text < document.referenceTexts.length :=
  hg.bounded (h.known_of_refers hr)

/-- Whatever keyword a legible schema of a grounded document has, that keyword is legible. -/
theorem Grounded.legible_of_has (hg : Grounded document known rank) {s : Schema}
    (h : s.Legible known) {k : Keyword} (hk : s.Has document k) : k.Legible known := by
  induction hk with
  | own hk _ => exact h.keyword _ hk
  | allOf hl hs _ ih => exact ih (h.schemas hl _ hs)
  | reference hl ht _ ih =>
    obtain ⟨target, htarget, -, hlegible, -⟩ := hg.leads (h.text hl)
    obtain rfl := Except.ok.inj (ht.symm.trans htarget)
    exact ih hlegible

end Schema

end FieldMask
