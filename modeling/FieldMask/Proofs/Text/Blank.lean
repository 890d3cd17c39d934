import FieldMask.Text.Blank
import Mathlib.Data.List.Basic

/-!
# Texts between blanks

A text that neither begins nor ends with a blank is what is left of it when blanks are put around it
and taken off again (`trim_append`). Conversely every text is what is left of it, between blanks
(`exists_trim`), and what is left neither begins nor ends with one.
-/

namespace FieldMask

theorem mem_codes_of_inRanges {ranges : List (Nat × Nat)} {code : Nat}
    (h : inRanges ranges code = true) :
    code ∈ ranges.flatMap fun r => List.range' r.1 (r.2 + 1 - r.1) := by
  obtain ⟨r, hr, hcode⟩ := List.any_eq_true.1 h
  simp only [Bool.and_eq_true, decide_eq_true_eq] at hcode
  refine List.mem_flatMap.2 ⟨r, hr, List.mem_range'_1.2 ?_⟩
  omega

theorem forall_mem_takeWhile_blank (text : List Char) :
    ∀ c ∈ text.takeWhile isBlankChar, isBlankChar c = true :=
  List.all_eq_true.1 List.all_takeWhile

theorem exists_trimEnd (text : List Char) :
    ∃ trail, text = trimEnd text ++ trail ∧ ∀ c ∈ trail, isBlankChar c = true := by
  refine ⟨(text.reverse.takeWhile isBlankChar).reverse, ?_, fun c hc => ?_⟩
  · rw [trimEnd, ← List.reverse_append, List.takeWhile_append_dropWhile, List.reverse_reverse]
  · exact forall_mem_takeWhile_blank _ c (List.mem_reverse.1 hc)

/-- A text is what is left of it without the blanks around it, between blanks. -/
theorem exists_trim (text : List Char) :
    ∃ trail, text = text.takeWhile isBlankChar ++ (trim text ++ trail) ∧
      ∀ c ∈ trail, isBlankChar c = true := by
  obtain ⟨trail, hstart, htrail⟩ := exists_trimEnd (trimStart text)
  refine ⟨trail, ?_, htrail⟩
  rw [trim, ← hstart, trimStart, List.takeWhile_append_dropWhile]

theorem not_blank_of_head?_dropWhile {text : List Char} {c : Char}
    (h : (text.dropWhile isBlankChar).head? = some c) : isBlankChar c = false := by
  have := List.head?_dropWhile_not isBlankChar text
  rw [h] at this
  simpa using this

theorem not_blank_of_head?_trim {text : List Char} {c : Char} (h : (trim text).head? = some c) :
    isBlankChar c = false := by
  obtain ⟨trail, hstart, -⟩ := exists_trimEnd (trimStart text)
  have hhead : (trimStart text).head? = some c := by
    rw [hstart, ← trim, List.head?_append, h]
    rfl
  exact not_blank_of_head?_dropWhile hhead

theorem not_blank_of_getLast?_trim {text : List Char} {c : Char}
    (h : (trim text).getLast? = some c) : isBlankChar c = false := by
  rw [trim, trimEnd, List.getLast?_reverse] at h
  exact not_blank_of_head?_dropWhile h

theorem dropWhile_blank_append {blanks rest : List Char} (h : ∀ c ∈ blanks, isBlankChar c = true)
    (hrest : ∀ c, rest.head? = some c → isBlankChar c = false) :
    (blanks ++ rest).dropWhile isBlankChar = rest := by
  rw [List.dropWhile_append_of_pos h]
  cases rest with
  | nil => rfl
  | cons c rest => exact List.dropWhile_cons_of_neg (by simp [hrest c rfl])

/-- A text without blanks at its ends is what is left of it between blanks. -/
theorem trim_append {front text back : List Char} (hfront : ∀ c ∈ front, isBlankChar c = true)
    (hback : ∀ c ∈ back, isBlankChar c = true) (hne : text ≠ [])
    (hhead : ∀ c, text.head? = some c → isBlankChar c = false)
    (hlast : ∀ c, text.getLast? = some c → isBlankChar c = false) :
    trim (front ++ (text ++ back)) = text := by
  have hstart : trimStart (front ++ (text ++ back)) = text ++ back := by
    refine dropWhile_blank_append hfront fun c hc => hhead c ?_
    obtain ⟨d, rest, rfl⟩ := List.exists_cons_of_ne_nil hne
    exact hc
  rw [trim, hstart, trimEnd, List.reverse_append]
  rw [dropWhile_blank_append (fun c hc => hback c (List.mem_reverse.1 hc)), List.reverse_reverse]
  exact fun c hc => hlast c (List.head?_reverse.symm.trans hc)

end FieldMask
