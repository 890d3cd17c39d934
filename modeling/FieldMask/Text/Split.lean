/-!
# Splitting text

A text is split at every occurrence of a separator. The parts with the separator between them make
up the text (`intercalate_splitAt`), and none of them has the separator in it
(`not_mem_of_mem_splitAt`).
-/

namespace FieldMask

/-- The parts of a text between occurrences of a separator. -/
def splitAt (separator : Char) : List Char → List (List Char)
  | [] => [[]]
  | c :: rest =>
    if c = separator then [] :: splitAt separator rest
    else match splitAt separator rest with
      | [] => [[c]]
      | part :: parts => (c :: part) :: parts

theorem splitAt_ne_nil (separator : Char) (text : List Char) : splitAt separator text ≠ [] := by
  cases text with
  | nil => simp [splitAt]
  | cons c rest =>
    unfold splitAt
    split
    · simp
    · split <;> simp

theorem splitAt_cons_self (separator : Char) (rest : List Char) :
    splitAt separator (separator :: rest) = [] :: splitAt separator rest := by
  simp [splitAt]

theorem splitAt_cons_of_ne {separator c : Char} {rest part : List Char} {parts : List (List Char)}
    (hc : c ≠ separator) (h : splitAt separator rest = part :: parts) :
    splitAt separator (c :: rest) = (c :: part) :: parts := by
  simp [splitAt, hc, h]

theorem intercalate_splitAt (separator : Char) (text : List Char) :
    [separator].intercalate (splitAt separator text) = text := by
  induction text with
  | nil => simp [splitAt, List.intercalate]
  | cons c rest ih =>
    obtain ⟨part, parts, h⟩ := List.exists_cons_of_ne_nil (splitAt_ne_nil separator rest)
    rw [h] at ih
    by_cases hc : c = separator
    · rw [hc, splitAt_cons_self, h]
      simpa [List.intercalate] using ih
    · rw [splitAt_cons_of_ne hc h]
      cases parts with
      | nil => simpa [List.intercalate] using ih
      | cons next parts => simpa [List.intercalate] using ih

theorem splitAt_injective (separator : Char) : Function.Injective (splitAt separator) := by
  intro text other h
  rw [← intercalate_splitAt separator text, h, intercalate_splitAt]

theorem not_mem_of_mem_splitAt {separator : Char} {text part : List Char}
    (h : part ∈ splitAt separator text) : separator ∉ part := by
  induction text generalizing part with
  | nil => simp_all [splitAt]
  | cons c rest ih =>
    obtain ⟨first, parts, hs⟩ := List.exists_cons_of_ne_nil (splitAt_ne_nil separator rest)
    by_cases hc : c = separator
    · rw [hc, splitAt_cons_self] at h
      rcases List.mem_cons.1 h with rfl | h
      · simp
      · exact ih h
    · rw [splitAt_cons_of_ne hc hs] at h
      rcases List.mem_cons.1 h with rfl | h
      · simpa [Ne.symm hc] using ih (hs ▸ List.mem_cons_self)
      · exact ih (hs ▸ List.mem_cons_of_mem _ h)

end FieldMask
