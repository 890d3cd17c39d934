import FieldMask.Pointer
import FieldMask.Text.Split
import Mathlib.Data.List.Basic

/-!
# Texts and referents of pointers

The text of a place is split at its slashes into the escaped texts of its segments, for none of them
brings a slash of its own (`Pointer.splitAt_segments`). `Json.resolve?` follows a place into a value
as RFC 6901 has it. A segment refers to an item of an array if it is the decimal text of its index,
without a sign and without leading zeros, and there is no bound on indices as there is for
`Json.at?`.
-/

namespace FieldMask

/-! ## Splitting -/

theorem splitAt_of_not_mem {separator : Char} {text : List Char} (h : separator ∉ text) :
    splitAt separator text = [text] := by
  induction text with
  | nil => rfl
  | cons c rest ih =>
    obtain ⟨hc, hrest⟩ := not_or.1 fun h' => h (List.mem_cons.2 h')
    exact splitAt_cons_of_ne (Ne.symm hc) (ih hrest)

/-- A separator splits what stands before it from what stands behind it. -/
theorem splitAt_append_cons (separator : Char) (front rest : List Char) :
    splitAt separator (front ++ separator :: rest)
      = splitAt separator front ++ splitAt separator rest := by
  induction front with
  | nil => exact splitAt_cons_self separator rest
  | cons c front ih =>
    rw [List.cons_append]
    by_cases hc : c = separator
    · rw [hc, splitAt_cons_self, splitAt_cons_self, ih, List.cons_append]
    · obtain ⟨part, parts, h⟩ := List.exists_cons_of_ne_nil (splitAt_ne_nil separator front)
      rw [h, List.cons_append] at ih
      rw [splitAt_cons_of_ne hc ih, splitAt_cons_of_ne hc h, List.cons_append]

theorem splitAt_append {separator : Char} {part rest : List Char} (h : separator ∉ part) :
    splitAt separator (part ++ separator :: rest) = part :: splitAt separator rest := by
  rw [splitAt_append_cons, splitAt_of_not_mem h, List.singleton_append]

/-- Only a text without the separator is split into one part, which is the text. -/
theorem eq_of_splitAt {separator : Char} {text part : List Char}
    (h : splitAt separator text = [part]) : separator ∉ text ∧ part = text := by
  have htext := intercalate_splitAt separator text
  rw [h, List.intercalate_singleton] at htext
  exact ⟨htext ▸ not_mem_of_mem_splitAt (h ▸ List.mem_singleton_self part), htext⟩

/-! ## One text for each -/

section FlatMap

variable {α β : Type} {f : α → List β}

theorem length_le_flatMap (hf : ∀ a, f a ≠ []) (l : List α) :
    l.length ≤ (l.flatMap f).length := by
  induction l with
  | nil => exact Nat.le_refl _
  | cons a l ih =>
    have ha : 0 < (f a).length := List.length_pos_iff.2 (hf a)
    rw [List.flatMap_cons, List.length_append, List.length_cons]
    omega

/-- One element for each is given just if each element gives just that one. -/
theorem flatMap_eq_map_iff {g : α → β} (hf : ∀ a, f a ≠ []) {l : List α} :
    l.flatMap f = l.map g ↔ ∀ a ∈ l, f a = [g a] := by
  induction l with
  | nil => simp
  | cons a l ih =>
    rw [List.flatMap_cons, List.map_cons, List.forall_mem_cons, ← ih]
    constructor
    · intro h
      obtain ⟨b, rest, hb⟩ := List.exists_cons_of_ne_nil (hf a)
      rw [hb, List.cons_append] at h
      rw [hb]
      obtain ⟨rfl, htail⟩ := List.cons.inj h
      -- each of the others gives at least one, so that nothing more is left for the first
      have hothers := length_le_flatMap hf l
      have hall := congrArg List.length htail
      rw [List.length_append, List.length_map] at hall
      obtain rfl : rest = [] := List.length_eq_zero_iff.1 (by omega)
      exact ⟨rfl, htail⟩
    · rintro ⟨ha, hl⟩
      rw [ha, hl, List.singleton_append]

end FlatMap

/-! ## Texts of places -/

namespace Pointer

theorem toList_escape (segment : String) :
    (escape segment).toList = segment.toList.flatMap escapeChar := by
  rw [escape, String.toList_ofList]

theorem slash_not_mem_escape (segment : String) : '/' ∉ (escape segment).toList := by
  rw [toList_escape]
  intro h
  obtain ⟨c, -, hc⟩ := List.mem_flatMap.1 h
  unfold escapeChar at hc
  split at hc
  · simp at hc
  · split at hc
    · simp at hc
    · rename_i hslash
      exact hslash (List.mem_singleton.1 hc).symm

theorem escapeChar_ne_nil (c : Char) : escapeChar c ≠ [] := by
  unfold escapeChar
  split_ifs <;> exact List.cons_ne_nil _ _

theorem length_le_escape (segment : String) :
    segment.toList.length ≤ (escape segment).toList.length := by
  rw [toList_escape]
  exact length_le_flatMap escapeChar_ne_nil segment.toList

/-! ## Plain segments -/

/-- The segment has no character that is escaped. -/
def IsPlain (segment : String) : Prop := '~' ∉ segment.toList ∧ '/' ∉ segment.toList

instance (segment : String) : Decidable (IsPlain segment) := inferInstanceAs (Decidable (_ ∧ _))

/-- What is escaped is written with a tilde. -/
theorem isPlain_of_tilde_not_mem {segment : String} (h : '~' ∉ (escape segment).toList) :
    IsPlain segment := by
  rw [toList_escape] at h
  constructor
  · exact fun hmem => h (List.mem_flatMap.2 ⟨'~', hmem, by decide⟩)
  · exact fun hmem => h (List.mem_flatMap.2 ⟨'/', hmem, by decide⟩)

theorem escapeChar_eq_iff {c : Char} : escapeChar c = [c] ↔ c ≠ '~' ∧ c ≠ '/' := by
  unfold escapeChar
  split_ifs with htilde hslash
  · simp [htilde]
  · simp [hslash]
  · simp [htilde, hslash]

/-- A segment is written as it is just if it is plain. -/
theorem escape_eq_self_iff {segment : String} : escape segment = segment ↔ IsPlain segment := by
  rw [← String.toList_inj, toList_escape]
  nth_rewrite 2 [← List.map_id segment.toList]
  rw [flatMap_eq_map_iff escapeChar_ne_nil]
  constructor
  · exact fun h => ⟨fun hmem => (escapeChar_eq_iff.1 (h _ hmem)).1 rfl,
      fun hmem => (escapeChar_eq_iff.1 (h _ hmem)).2 rfl⟩
  · exact fun h c hc => escapeChar_eq_iff.2 ⟨fun heq => h.1 (heq ▸ hc), fun heq => h.2 (heq ▸ hc)⟩

theorem toList_foldl_join (segments : List String) (text : String) :
    (segments.foldl join text).toList
      = text.toList ++ segments.flatMap fun segment => '/' :: (escape segment).toList := by
  induction segments generalizing text with
  | nil => simp
  | cons segment rest ih =>
    rw [List.foldl_cons, ih, join, List.flatMap_cons]
    simp

/-- The text of segments, but for the first slash, is split into their escaped texts. -/
theorem splitAt_segments (first : String) (rest : List String) :
    splitAt '/' ((escape first).toList ++
        rest.flatMap fun segment => '/' :: (escape segment).toList)
      = (first :: rest).map fun segment => (escape segment).toList := by
  induction rest generalizing first with
  | nil => simpa using splitAt_of_not_mem (slash_not_mem_escape first)
  | cons second rest ih =>
    rw [List.flatMap_cons, List.cons_append, splitAt_append (slash_not_mem_escape first), ih,
      List.map_cons, List.map_cons, List.map_cons]

end Pointer

/-! ## Places in values -/

theorem digitsValue_toDigits (n : Nat) : digitsValue (Nat.toDigits 10 n) = n := by
  have h : digitsValue (Nat.toDigits 10 n) = Nat.ofDigitChars 10 (Nat.toDigits 10 n) 0 := by
    unfold digitsValue Nat.ofDigitChars digitValue
    simp only [Nat.mul_comm]
  rw [h, Nat.ofDigitChars_ten_toDigits]

/-- The index whose decimal text a segment is. -/
def indexOfSegment? (segment : String) : Option Nat :=
  (natural? segment.toList).filter fun index => Number.intText index == segment

theorem toList_intText (index : Nat) :
    (Number.intText index).toList = Nat.toDigits 10 index := by
  rw [Number.intText, String.toList_ofList, if_neg (by omega), Int.natAbs_natCast]

theorem intText_ne_empty (index : Nat) : Number.intText index ≠ "" := by
  intro h
  have hdigits : Nat.toDigits 10 index = [] := toList_intText index ▸ h ▸ rfl
  exact List.length_pos_iff.1 Nat.length_toDigits_pos hdigits

theorem isDigit_of_mem_intText {index : Nat} {c : Char} (h : c ∈ (Number.intText index).toList) :
    c.isDigit = true :=
  Nat.isDigit_of_mem_toDigits (by decide) (by decide) (toList_intText index ▸ h)

theorem isPlain_intText (index : Nat) : Pointer.IsPlain (Number.intText index) :=
  ⟨fun h => absurd (isDigit_of_mem_intText h) (by decide),
    fun h => absurd (isDigit_of_mem_intText h) (by decide)⟩

theorem natural?_intText (index : Nat) : natural? (Number.intText index).toList = some index := by
  have hne : (Nat.toDigits 10 index).isEmpty = false :=
    List.isEmpty_eq_false_iff.2 (List.length_pos_iff.1 Nat.length_toDigits_pos)
  have hall : (Nat.toDigits 10 index).all Char.isDigit = true :=
    List.all_eq_true.2 fun c hc => Nat.isDigit_of_mem_toDigits (by decide) (by decide) hc
  rw [natural?, toList_intText, hne, hall, digitsValue_toDigits]
  rfl

theorem indexOfSegment?_intText (index : Nat) :
    indexOfSegment? (Number.intText index) = some index := by
  rw [indexOfSegment?, natural?_intText, Option.filter_some, beq_self_eq_true, if_pos rfl]

namespace Json

/-- The member or the item of a value that a segment refers to. -/
def refer? (v : Json) (segment : String) : Option Json :=
  match v with
  | .obj members => members.lookup segment
  | .arr items => (indexOfSegment? segment).bind (items[·]?)
  | _ => none

/-- The value that a pointer refers to. -/
def resolve? (v : Json) (p : Pointer) : Option Json := p.segments.foldlM refer? v

theorem resolve?_cons (v : Json) (segment : String) (rest : List String) :
    v.resolve? ⟨segment :: rest⟩ = (v.refer? segment).bind (·.resolve? ⟨rest⟩) := rfl

theorem refer?_item {items : List Json} (index : Nat) :
    (Json.arr items).refer? (Number.intText index) = items[index]? := by
  rw [refer?, indexOfSegment?_intText]
  rfl

end Json

end FieldMask
