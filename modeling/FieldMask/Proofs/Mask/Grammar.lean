import FieldMask.Proofs.Mask.Siblings
import FieldMask.Proofs.Mask.Tokens
import FieldMask.Proofs.Outcome

/-!
# The grammar of masks

`Writes` is the grammar of mask texts on tokens:

    items := empty | item (","? item)* ","?
    item  := "*" | name | name "{" items "}"

The selectors that it relates to tokens are the items as they are written, repeated names included;
`Selector.denoteAll` says what they stand for.

The reader of masks keeps the levels that wait for a closing brace on a stack. `run_items` says that
it reads whatever the grammar writes, and `Reads.step` that what it has read so far is, level by
level, the beginning of something that the grammar writes. So `run_initial_iff`: it ends well on
the tokens of items, with the siblings that these stand for, and on nothing else.
-/

namespace FieldMask

namespace Mask

mutual

/-- The tokens of an item: the wildcard, a name, or a name with items in braces. -/
inductive WritesItem : Selector → List Token → Prop
  | wildcard : WritesItem .wildcard [.name Selector.wildcardName]
  | leaf {name} : name ≠ Selector.wildcardName → WritesItem (.leaf name) [.name name]
  | nested {name items ts} : name ≠ Selector.wildcardName → Writes items ts →
      WritesItem (.nested name items) (.name name :: .openBrace :: (ts ++ [.closeBrace]))

/-- The tokens of one item and more behind it, each with or without a comma in front. -/
inductive WritesRow : List Selector → List Token → Prop
  | one {s ts} : WritesItem s ts → WritesRow [s] ts
  | next {items s ts us} : WritesRow items ts → WritesItem s us →
      WritesRow (items ++ [s]) (ts ++ us)
  | nextComma {items s ts us} : WritesRow items ts → WritesItem s us →
      WritesRow (items ++ [s]) (ts ++ .comma :: us)

/-- The tokens of items: none, or a row of them that a comma may end. -/
inductive Writes : List Selector → List Token → Prop
  | none : Writes [] []
  | row {items ts} : WritesRow items ts → Writes items ts
  | comma {items ts} : WritesRow items ts → Writes items (ts ++ [.comma])

end

/-- Whatever items are written, one more may follow. -/
theorem Writes.snoc {items : List Selector} {s : Selector} {ts us : List Token}
    (h : Writes items ts) (hs : WritesItem s us) : WritesRow (items ++ [s]) (ts ++ us) := by
  cases h with
  | none => exact .one hs
  | row h => exact .next h hs
  | comma h => rw [List.append_assoc]; exact .nextComma h hs

theorem writesItem_ofName (name : String) : WritesItem (.ofName name) [.name name] := by
  unfold Selector.ofName
  split
  · rename_i h
    exact h ▸ .wildcard
  · rename_i h
    exact .leaf h

theorem ofName_eq_leaf {name : String} (h : name ≠ Selector.wildcardName) :
    Selector.ofName name = .leaf name := if_neg h

/-! ## What the grammar writes is read -/

/-- A comma may come next. -/
def Previous.AllowsComma : Previous → Prop
  | .closed | .name _ => True
  | _ => False

namespace ParseState

/-- Read tokens one after the other. -/
def run (st : ParseState) (lexemes : List Lexeme) : Except MaskParseError ParseState :=
  lexemes.foldlM step st

@[simp] theorem run_nil (st : ParseState) : st.run [] = .ok st := rfl

theorem run_cons {st next : ParseState} {l : Lexeme} (h : st.step l = .ok next)
    (rest : List Lexeme) : st.run (l :: rest) = next.run rest := by
  rw [run, List.foldlM_cons, h]
  rfl

theorem run_append {st next : ParseState} {a : List Lexeme} (h : st.run a = .ok next)
    (b : List Lexeme) : st.run (a ++ b) = next.run b := by
  rw [run, List.foldlM_append, ← run, h]
  rfl

/-- The names at the open level are distinct. -/
def Distinct (st : ParseState) : Prop := (Selector.names st.current).Nodup

theorem step_name (st : ParseState) (name : String) (offset : Nat) :
    let placed := (Selector.ofName name).insert st.current
    st.step ⟨.name name, offset⟩ = .ok ⟨placed.1, st.outer, .name placed.2⟩ := rfl

/-- A brace opens a level below the name that was just read. -/
theorem step_openBrace {name : String} (h : name ≠ Selector.wildcardName)
    (siblings : List Selector) (outer : List Suspended) (offset : Nat) :
    let placed := (Selector.ofName name).insert siblings
    (⟨placed.1, outer, .name placed.2⟩ : ParseState).step ⟨.openBrace, offset⟩
      = .ok ⟨[], ⟨placed.1, placed.2⟩ :: outer, .opened⟩ := by
  intro placed
  have hs : placed.1[placed.2]? = some (.ofName name) := Selector.getElem?_insert ..
  rw [ofName_eq_leaf h] at hs
  simp [step, opening, hs, Selector.isWildcard]

/-- A brace closes a level: what was read there comes below the name that it was opened for. -/
theorem step_closeBrace (name : String) {siblings : List Selector}
    (h : (Selector.names siblings).Nodup) (current : List Selector) (outer : List Suspended)
    (previous : Previous) (offset : Nat) :
    let placed := (Selector.ofName name).insert siblings
    (⟨current, ⟨placed.1, placed.2⟩ :: outer, previous⟩ : ParseState).step ⟨.closeBrace, offset⟩
      = .ok ⟨Selector.place siblings (.nested name current), outer, .closed⟩ := by
  intro placed
  have hmodify := Selector.modify_insert (s := .ofName name) (u := .nested name current)
    (fun s => .nested s.name current) (by simp) (by rw [Selector.name_ofName]; rfl) siblings
  rw [← Selector.fst_insert_eq_place h]
  simp only [step, closing, placed, hmodify]

theorem step_comma {st : ParseState} (h : st.previous.AllowsComma) (offset : Nat) :
    st.step ⟨.comma, offset⟩ = .ok { st with previous := .comma } := by
  obtain ⟨current, outer, previous⟩ := st
  cases previous <;> first | rfl | exact h.elim

end ParseState

theorem exists_of_map_token_cons {lexemes : List Lexeme} {t : Token} {ts : List Token}
    (h : lexemes.map Lexeme.token = t :: ts) :
    ∃ offset rest, lexemes = ⟨t, offset⟩ :: rest ∧ rest.map Lexeme.token = ts := by
  obtain ⟨l, rest, rfl, rfl, hrest⟩ := List.map_eq_cons_iff.1 h
  exact ⟨l.offset, rest, rfl, hrest⟩

theorem run_ofName {name : String} {lexemes : List Lexeme}
    (hl : lexemes.map Lexeme.token = [.name name]) {st : ParseState} (hst : st.Distinct) :
    ∃ p : Previous, p.AllowsComma ∧
      st.run lexemes = .ok ⟨Selector.place st.current (.ofName name), st.outer, p⟩ := by
  obtain ⟨offset, rest, rfl, hrest⟩ := exists_of_map_token_cons hl
  obtain rfl := List.map_eq_nil_iff.1 hrest
  refine ⟨.name ((Selector.ofName name).insert st.current).2, trivial, ?_⟩
  rw [ParseState.run_cons (ParseState.step_name ..), ← Selector.fst_insert_eq_place hst]
  rfl

mutual

theorem run_item : ∀ {s : Selector} {ts : List Token}, WritesItem s ts → ∀ {lexemes},
    lexemes.map Lexeme.token = ts → ∀ {st : ParseState}, st.Distinct → ∃ p : Previous,
      p.AllowsComma ∧ st.run lexemes = .ok ⟨Selector.place st.current s.denote, st.outer, p⟩
  | _, _, .wildcard, _, hl, _, hst => run_ofName hl hst
  | _, _, .leaf hne, _, hl, _, hst => by
    rw [← ofName_eq_leaf hne, Selector.denote_ofName]
    exact run_ofName hl hst
  | _, _, @WritesItem.nested name items ts hne hitems, lexemes, hl, st, hst => by
    obtain ⟨o₁, behind, rfl, hbehind⟩ := exists_of_map_token_cons hl
    obtain ⟨o₂, inside, rfl, hinside⟩ := exists_of_map_token_cons hbehind
    obtain ⟨inner, last, rfl, hinner, hlast⟩ := List.map_eq_append_iff.1 hinside
    obtain ⟨o₃, rest, rfl, hrest⟩ := exists_of_map_token_cons hlast
    obtain rfl := List.map_eq_nil_iff.1 hrest
    let placed := (Selector.ofName name).insert st.current
    let level : Suspended := ⟨placed.1, placed.2⟩
    obtain ⟨p, hp⟩ := run_items hitems hinner
      (show ParseState.Distinct ⟨[], level :: st.outer, .opened⟩ from List.nodup_nil)
    refine ⟨.closed, trivial, ?_⟩
    calc st.run _
      _ = ParseState.run ⟨placed.1, st.outer, .name placed.2⟩ _ :=
        ParseState.run_cons (ParseState.step_name ..) _
      _ = ParseState.run ⟨[], level :: st.outer, .opened⟩ _ :=
        ParseState.run_cons (ParseState.step_openBrace hne ..) _
      _ = ParseState.run ⟨Selector.denoteAll items, level :: st.outer, p⟩ _ :=
        ParseState.run_append hp _
      _ = .ok _ := ParseState.run_cons (ParseState.step_closeBrace name hst ..) []

theorem run_row : ∀ {items : List Selector} {ts : List Token}, WritesRow items ts → ∀ {lexemes},
    lexemes.map Lexeme.token = ts → ∀ {st : ParseState}, st.Distinct → ∃ p : Previous,
      p.AllowsComma ∧ st.run lexemes = .ok ⟨Selector.denoteFrom st.current items, st.outer, p⟩
  | _, _, .one hs, _, hl, _, hst => run_item hs hl hst
  | _, _, .next hrow hs, _, hl, st, hst => by
    obtain ⟨front, last, rfl, hfront, hlast⟩ := List.map_eq_append_iff.1 hl
    obtain ⟨p, -, hp⟩ := run_row hrow hfront hst
    obtain ⟨q, hq, hlast⟩ := run_item hs hlast
      (show ParseState.Distinct ⟨_, st.outer, p⟩ from Selector.nodup_names_denoteFrom hst _)
    refine ⟨q, hq, ?_⟩
    rw [ParseState.run_append hp, Selector.denoteFrom_append]
    exact hlast
  | _, _, .nextComma hrow hs, _, hl, st, hst => by
    obtain ⟨front, last, rfl, hfront, hlast⟩ := List.map_eq_append_iff.1 hl
    obtain ⟨o, last, rfl, hitem⟩ := exists_of_map_token_cons hlast
    obtain ⟨p, hcomma, hp⟩ := run_row hrow hfront hst
    obtain ⟨q, hq, hitem⟩ := run_item hs hitem
      (show ParseState.Distinct ⟨_, st.outer, .comma⟩ from Selector.nodup_names_denoteFrom hst _)
    refine ⟨q, hq, ?_⟩
    rw [ParseState.run_append hp, ParseState.run_cons (ParseState.step_comma hcomma o),
      Selector.denoteFrom_append]
    exact hitem

/-- The tokens of items add to the open level what the items stand for. -/
theorem run_items : ∀ {items : List Selector} {ts : List Token}, Writes items ts → ∀ {lexemes},
    lexemes.map Lexeme.token = ts → ∀ {st : ParseState}, st.Distinct → ∃ p : Previous,
      st.run lexemes = .ok ⟨Selector.denoteFrom st.current items, st.outer, p⟩
  | _, _, .none, _, hl, st, _ => by
    obtain rfl := List.map_eq_nil_iff.1 hl
    exact ⟨st.previous, rfl⟩
  | _, _, .row hrow, _, hl, _, hst => by
    obtain ⟨p, -, hp⟩ := run_row hrow hl hst
    exact ⟨p, hp⟩
  | _, _, .comma hrow, _, hl, _, hst => by
    obtain ⟨front, last, rfl, hfront, hlast⟩ := List.map_eq_append_iff.1 hl
    obtain ⟨o, rest, rfl, hrest⟩ := exists_of_map_token_cons hlast
    obtain rfl := List.map_eq_nil_iff.1 hrest
    obtain ⟨p, hcomma, hp⟩ := run_row hrow hfront hst
    refine ⟨.comma, ?_⟩
    rw [ParseState.run_append hp, ParseState.run_cons (ParseState.step_comma hcomma o)]
    rfl

end

/-! ## What is read is written by the grammar -/

/-- What was read at a level, up to the token before the next one. -/
inductive Begun : Previous → List Selector → List Token → Prop
  | start : Begun .start [] []
  | opened : Begun .opened [] []
  | comma {items ts} : WritesRow items ts → Begun .comma items (ts ++ [.comma])
  | closed {items ts} : WritesRow items ts → Begun .closed items ts
  /-- The items before a name that may turn out to have a level of its own. -/
  | name {items ts} (name : String) : Writes items ts →
      Begun (.name ((Selector.ofName name).insert (Selector.denoteAll items)).2)
        (items ++ [.ofName name]) (ts ++ [.name name])

/-- What was read before the open level, at the levels that wait for it. -/
inductive Waiting : List Suspended → List Token → Prop
  | nil : Waiting [] []
  | level {outer us items ts name} : Waiting outer us → Writes items ts →
      name ≠ Selector.wildcardName →
      Waiting (⟨((Selector.ofName name).insert (Selector.denoteAll items)).1,
          ((Selector.ofName name).insert (Selector.denoteAll items)).2⟩ :: outer)
        (us ++ (ts ++ [.name name, .openBrace]))

/-- The tokens are, level by level, the beginning of what the grammar writes for the state. -/
def Reads (st : ParseState) (ts : List Token) : Prop :=
  ∃ us items vs, ts = us ++ vs ∧ Waiting st.outer us ∧ Begun st.previous items vs ∧
    st.current = Selector.denoteAll items

theorem fst_insert_denoteAll (items : List Selector) (name : String) :
    ((Selector.ofName name).insert (Selector.denoteAll items)).1
      = Selector.denoteAll (items ++ [.ofName name]) := by
  rw [Selector.fst_insert_eq_place (Selector.nodup_names_denoteAll items),
    Selector.denoteAll_snoc, Selector.denote_ofName]

namespace Begun

variable {previous : Previous} {items : List Selector} {ts : List Token}

theorem row (h : Begun previous items ts) (hp : previous.AllowsComma) : WritesRow items ts := by
  cases h with
  | start | opened | comma => exact hp.elim
  | closed h => exact h
  | name name h => exact h.snoc (writesItem_ofName name)

theorem writes (h : Begun previous items ts) : Writes items ts := by
  cases h with
  | start | opened => exact .none
  | comma h => exact .comma h
  | closed h => exact .row h
  | name name h => exact .row (h.snoc (writesItem_ofName name))

end Begun

namespace Reads

variable {st next : ParseState} {ts : List Token}

theorem initial : Reads .initial [] := ⟨[], [], [], rfl, .nil, .start, rfl⟩

theorem opening {offset : Nat} (h : Reads st ts) (hstep : st.opening offset = .ok next) :
    Reads next (ts ++ [.openBrace]) := by
  obtain ⟨us, items, vs, rfl, hwait, hbegun, hcurrent⟩ := h
  obtain ⟨current, outer, previous⟩ := st
  cases hbegun with
  | start | opened | comma | closed => simp [ParseState.opening] at hstep
  | @name items ts name hitems =>
    obtain rfl := hcurrent.trans (fst_insert_denoteAll items name).symm
    have hs := Selector.getElem?_insert (.ofName name) (Selector.denoteAll items)
    simp only [ParseState.opening, hs, Option.any_some] at hstep
    split at hstep
    · simp at hstep
    · rename_i hw
      -- the selector at the index is the one that the name wrote, so the name is no wildcard
      have hne : name ≠ Selector.wildcardName := by
        rintro rfl
        exact hw rfl
      obtain rfl := Except.ok.inj hstep
      refine ⟨_, [], [], ?_, .level hwait hitems hne, .opened, rfl⟩
      simp

theorem closing {offset : Nat} (h : Reads st ts) (hstep : st.closing offset = .ok next) :
    Reads next (ts ++ [.closeBrace]) := by
  obtain ⟨us, items, vs, rfl, hwait, hbegun, hcurrent⟩ := h
  obtain ⟨current, outer, previous⟩ := st
  cases hwait with
  | nil => simp [ParseState.closing] at hstep
  | @level outer us before ws name hwait hbefore hne =>
    have hitem : WritesItem (.nested name items) _ := .nested hne hbegun.writes
    have hclose := ParseState.step_closeBrace name
      (Selector.nodup_names_denoteAll before) current outer previous offset
    obtain rfl := Except.ok.inj (hstep.symm.trans hclose)
    refine ⟨us, before ++ [.nested name items], _, ?_, hwait, .closed (hbefore.snoc hitem), ?_⟩
    · simp
    · rw [Selector.denoteAll_snoc, Selector.denote_nested, ← hcurrent]

/-- One more token keeps it so. -/
theorem step {l : Lexeme} (h : Reads st ts) (hstep : st.step l = .ok next) :
    Reads next (ts ++ [l.token]) := by
  obtain ⟨token, offset⟩ := l
  cases token with
  | openBrace => exact h.opening hstep
  | closeBrace => exact h.closing hstep
  | comma =>
    obtain ⟨us, items, vs, rfl, hwait, hbegun, hcurrent⟩ := h
    obtain ⟨current, outer, previous⟩ := st
    have hp : previous.AllowsComma := by
      cases previous with
      | closed | name => trivial
      | start | opened | comma => cases hstep
    rw [ParseState.step_comma hp] at hstep
    obtain rfl := Except.ok.inj hstep
    exact ⟨us, items, _, List.append_assoc .., hwait, .comma (hbegun.row hp), hcurrent⟩
  | name text =>
    obtain ⟨us, items, vs, rfl, hwait, hbegun, hcurrent⟩ := h
    obtain rfl := Except.ok.inj ((ParseState.step_name ..).symm.trans hstep)
    refine ⟨us, items ++ [.ofName text], _, List.append_assoc .., hwait, ?_, ?_⟩
    · rw [hcurrent]
      exact .name text hbegun.writes
    · rw [hcurrent, fst_insert_denoteAll]

/-- Any number of tokens keeps it so. -/
theorem run {lexemes : List Lexeme} (h : Reads st ts) (hrun : st.run lexemes = .ok next) :
    Reads next (ts ++ lexemes.map Lexeme.token) := by
  induction lexemes generalizing st ts with
  | nil =>
    obtain rfl := Except.ok.inj hrun
    simpa using h
  | cons l rest ih =>
    rw [ParseState.run, List.foldlM_cons, bind_eq_ok] at hrun
    obtain ⟨st', hl, hrest⟩ := hrun
    have := ih (h.step hl) hrest
    simpa using this

end Reads

/-- Tokens are read to the end, with no level left open, just if they write items. -/
theorem run_initial_iff {lexemes : List Lexeme} {siblings : List Selector} :
    (∃ p : Previous, ParseState.run .initial lexemes = .ok ⟨siblings, [], p⟩)
      ↔ ∃ items, Writes items (lexemes.map Lexeme.token) ∧ siblings = Selector.denoteAll items := by
  constructor
  · rintro ⟨p, h⟩
    obtain ⟨us, items, vs, hts, hwait, hbegun, hcurrent⟩ := Reads.initial.run h
    cases hwait
    rw [List.nil_append, List.nil_append] at hts
    exact ⟨items, hts ▸ hbegun.writes, hcurrent⟩
  · rintro ⟨items, h, rfl⟩
    exact run_items h rfl (show ParseState.initial.Distinct from List.nodup_nil)

end Mask

end FieldMask
