import FieldMask.Proofs.Mask.Grammar
import FieldMask.Proofs.Mask.Selection
import Mathlib.Data.List.Induction

/-!
# Indices of the mask reader

The reader holds indices into lists of siblings: that of the name it has just read, in the open
level, and in every suspended level that of the name below which the next one was opened. Between
these two uses the levels are suspended, taken up again and changed in place, and `ParseState.Sound`
is the invariant of all of it. A token is read by an access at one of the indices
(`stepWithin?_eq`), so no access fails, whatever the text (`parse_within_bounds`).
-/

namespace FieldMask

namespace Mask

/-- The siblings of the open level and of those around it. -/
def ParseState.levels (st : ParseState) : List (List Selector) :=
  st.current :: st.outer.map Suspended.siblings

/-- The index held with a level is that of a selector, and it is not the wildcard. -/
def Suspended.Sound (level : Suspended) : Prop :=
  ∃ _ : level.index < level.siblings.length, level.siblings[level.index] ≠ .wildcard

/-- The indices that a state holds are those of selectors, given the token that was read last. -/
structure ParseState.Sound (st : ParseState) (last : Option Token) : Prop where
  /-- The index of a name that was just read is that of its selector. -/
  named : ∀ index, st.previous = .name index → ∃ (_ : index < st.current.length) (text : String),
    last = some (.name text) ∧ st.current[index] = .ofName text
  suspended : ∀ level ∈ st.outer, level.Sound
  distinct : ∀ siblings ∈ st.levels, (Selector.names siblings).Nodup

namespace ParseState

/-! ## Accesses that can fail -/

/-- Read a token by accesses that have to be within a level; `none` if one of them is not. -/
def stepWithin? (st : ParseState) (l : Lexeme) : Option (Except MaskParseError ParseState) :=
  match l.token with
  | .openBrace =>
    match st.previous with
    | .name index => do
      let s ← st.current[index]?
      return if s.isWildcard then .error (.unexpectedOpeningBracket l.offset)
        else .ok ⟨[], ⟨st.current, index⟩ :: st.outer, .opened⟩
    | _ => some (.error (.unexpectedOpeningBracket l.offset))
  | .closeBrace =>
    match st.outer with
    | [] => some (.error (.unexpectedClosingBracket l.offset))
    | level :: outer => do
      let s ← level.siblings[level.index]?
      return .ok ⟨level.siblings.set level.index (.nested s.name st.current), outer, .closed⟩
  | .comma | .name _ => some (st.step l)

/-- Read tokens in this way up to the first error. -/
def runWithin? (st : ParseState) : List Lexeme → Option (Except MaskParseError ParseState)
  | [] => some (.ok st)
  | l :: rest => do
    match ← st.stepWithin? l with
    | .ok next => next.runWithin? rest
    | .error e => return .error e

end ParseState

/-- The mask that a text writes, read by accesses that have to be within a level. -/
def parseWithin? (text : String) : Option (Except MaskParseError Mask) :=
  match body text.toList with
  | .error e => some (.error e)
  | .ok (offset, chars) => do
    match ← ParseState.initial.runWithin? (Lexeme.ofText offset chars) with
    | .ok st => return if st.outer.isEmpty then .ok ⟨st.current⟩ else .error .missingClosingBracket
    | .error e => return .error e

/-! ## The invariant -/

namespace ParseState

variable {st next : ParseState} {last : Option Token} {l : Lexeme}

/-- A selector that gets children keeps its name, and so do its siblings. -/
theorem names_modify (siblings children : List Selector) (index : Nat) :
    Selector.names (siblings.modify index fun s => .nested s.name children)
      = Selector.names siblings := by
  induction siblings generalizing index with
  | nil => cases index <;> rfl
  | cons s rest ih =>
    cases index with
    | zero => rfl
    | succ index => rw [List.modify_succ_cons, Selector.names_cons, ih, Selector.names_cons]

theorem sound_initial : Sound .initial none where
  named _ h := Previous.noConfusion h
  suspended := List.forall_mem_nil _
  distinct := List.forall_mem_singleton.2 List.nodup_nil

/-- A brace opens a level below a name that was just read, and suspends the level of that name. -/
theorem Sound.opening {offset : Nat} (h : st.Sound last) (hstep : st.opening offset = .ok next) :
    next.Sound (some .openBrace) := by
  obtain ⟨current, outer, previous⟩ := st
  cases previous with
  | name index =>
    obtain ⟨hindex, text, -, htext⟩ := h.named index rfl
    simp only [ParseState.opening, List.getElem?_eq_getElem hindex, Option.any_some] at hstep
    split at hstep
    · cases hstep
    · rename_i hw
      obtain rfl := Except.ok.inj hstep
      have hlevel : Suspended.Sound ⟨current, index⟩ :=
        ⟨hindex, fun hwild => hw (Selector.isWildcard_iff.2 hwild)⟩
      exact ⟨fun _ h => Previous.noConfusion h, List.forall_mem_cons.2 ⟨hlevel, h.suspended⟩,
        List.forall_mem_cons.2 ⟨List.nodup_nil, h.distinct⟩⟩
  | start | opened | closed | comma => cases hstep

/-- A brace closes the open level and takes up the one around it. -/
theorem Sound.closing {offset : Nat} (h : st.Sound last) (hstep : st.closing offset = .ok next) :
    next.Sound (some .closeBrace) := by
  obtain ⟨current, outer, previous⟩ := st
  cases outer with
  | nil => cases hstep
  | cons level outer =>
    obtain rfl := Except.ok.inj hstep
    obtain ⟨-, hsuspended⟩ := List.forall_mem_cons.1 h.suspended
    obtain ⟨hlevel, houter⟩ := List.forall_mem_cons.1 (List.forall_mem_cons.1 h.distinct).2
    refine ⟨fun _ h => Previous.noConfusion h, hsuspended, List.forall_mem_cons.2 ⟨?_, houter⟩⟩
    rw [names_modify]
    exact hlevel

/-- A name is put among its siblings, and its index is the place where it was put. -/
theorem Sound.name (h : st.Sound last) (text : String) :
    let placed := (Selector.ofName text).insert st.current
    Sound ⟨placed.1, st.outer, .name placed.2⟩ (some (.name text)) := by
  intro placed
  obtain ⟨hcurrent, houter⟩ := List.forall_mem_cons.1 h.distinct
  refine ⟨fun index hindex => ?_, h.suspended, List.forall_mem_cons.2 ⟨?_, houter⟩⟩
  · obtain rfl := Previous.name.inj hindex
    obtain ⟨hlt, hs⟩ := List.getElem?_eq_some_iff.1
      (Selector.getElem?_insert (.ofName text) st.current)
    exact ⟨hlt, text, rfl, hs⟩
  · rw [Selector.fst_insert_eq_place hcurrent]
    exact Selector.nodup_names_place hcurrent _

/-- Every token keeps the indices sound. -/
theorem Sound.step (h : st.Sound last) (hstep : st.step l = .ok next) :
    next.Sound (some l.token) := by
  obtain ⟨token, offset⟩ := l
  cases token with
  | openBrace => exact h.opening hstep
  | closeBrace => exact h.closing hstep
  | name text =>
    obtain rfl := Except.ok.inj hstep
    exact h.name text
  | comma =>
    obtain ⟨current, outer, previous⟩ := st
    cases previous with
    | start | opened | comma => cases hstep
    | closed | name =>
      obtain rfl := Except.ok.inj hstep
      exact ⟨fun _ h => Previous.noConfusion h, h.suspended, h.distinct⟩

/-- So the indices are sound after any number of tokens. -/
theorem sound_of_run {lexemes : List Lexeme} (h : ParseState.run .initial lexemes = .ok st) :
    st.Sound (lexemes.getLast?.map Lexeme.token) := by
  induction lexemes using List.reverseRecOn generalizing st with
  | nil =>
    obtain rfl := Except.ok.inj h
    exact sound_initial
  | append_singleton front l ih =>
    rw [ParseState.run, List.foldlM_append, bind_eq_ok] at h
    obtain ⟨before, hfront, h⟩ := h
    rw [List.foldlM_cons, bind_eq_ok] at h
    obtain ⟨after, hstep, h⟩ := h
    obtain rfl := Except.ok.inj h
    rw [List.getLast?_concat]
    exact (ih hfront).step hstep

/-! ## No access fails -/

theorem stepWithin?_eq (h : st.Sound last) (l : Lexeme) : st.stepWithin? l = some (st.step l) := by
  obtain ⟨current, outer, previous⟩ := st
  obtain ⟨token, offset⟩ := l
  cases token with
  | openBrace =>
    cases previous with
    | name index =>
      obtain ⟨hindex, -⟩ := h.named index rfl
      simp [stepWithin?, ParseState.step, ParseState.opening, List.getElem?_eq_getElem hindex]
    | start | opened | closed | comma => rfl
  | closeBrace =>
    cases outer with
    | nil => rfl
    | cons level outer =>
      obtain ⟨hindex, -⟩ := h.suspended level List.mem_cons_self
      simp [stepWithin?, ParseState.step, ParseState.closing, List.getElem?_eq_getElem hindex,
        List.modify_eq_set_getElem?]
  | comma | name => rfl

theorem runWithin?_eq (h : st.Sound last) (lexemes : List Lexeme) :
    st.runWithin? lexemes = some (st.run lexemes) := by
  induction lexemes generalizing st last with
  | nil => rfl
  | cons l rest ih =>
    rw [runWithin?, stepWithin?_eq h, ParseState.run, List.foldlM_cons]
    cases hstep : st.step l with
    | error e => rfl
    | ok next => exact ih (h.step hstep)

end ParseState

theorem parseWithin?_eq (text : String) : parseWithin? text = some (Mask.parse text) := by
  unfold parseWithin? Mask.parse
  cases body text.toList with
  | error e => rfl
  | ok found =>
    obtain ⟨offset, chars⟩ := found
    dsimp only
    rw [ParseState.runWithin?_eq ParseState.sound_initial, bind_ok, ← ParseState.run]
    cases ParseState.run .initial (Lexeme.ofText offset chars) with
    | error e => rfl
    | ok st =>
      dsimp only [bind, Option.bind_some, Except.bind]
      split <;> rfl

/--
**The reader of masks never leaves a level.** Reading by accesses that have to be within a level
comes to the same for every text, and after any tokens of a text the indices held are sound.
-/
theorem parse_within_bounds (text : String) :
    parseWithin? text = some (Mask.parse text) ∧
      ∀ {offset chars front back st}, body text.toList = .ok (offset, chars) →
        Lexeme.ofText offset chars = front ++ back → ParseState.run .initial front = .ok st →
        st.Sound (front.getLast?.map Lexeme.token) :=
  ⟨parseWithin?_eq text, fun _ _ hrun => ParseState.sound_of_run hrun⟩

/-- The second `a` is put where the first one was, and its level is suspended with that index. -/
theorem parse_within_bounds_repeated :
    let text := "a,b,a{c,*}"
    let front : List Lexeme := [⟨.name "a", 0⟩, ⟨.comma, 1⟩, ⟨.name "b", 2⟩, ⟨.comma, 3⟩,
      ⟨.name "a", 4⟩, ⟨.openBrace, 5⟩, ⟨.name "c", 6⟩]
    let back : List Lexeme := [⟨.comma, 7⟩, ⟨.name "*", 8⟩, ⟨.closeBrace, 9⟩]
    let st : ParseState := ⟨[.leaf "c"], [⟨[.leaf "a", .leaf "b"], 0⟩], .name 0⟩
    body text.toList = .ok (0, text.toList) ∧ Lexeme.ofText 0 text.toList = front ++ back ∧
      ParseState.run .initial front = .ok st ∧ st.Sound (some (.name "c")) := by
  intro text front back st
  have hbody : body text.toList = .ok (0, text.toList) := by decide +kernel
  have hl : Lexeme.ofText 0 text.toList = front ++ back := by decide +kernel
  have hrun : ParseState.run .initial front = .ok st := by decide +kernel
  exact ⟨hbody, hl, hrun, (parse_within_bounds text).2 hbody hl hrun⟩

end Mask

end FieldMask
