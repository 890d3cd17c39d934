import FieldMask.Proofs.Mask.Grammar

/-!
# Which texts are masks

The body of a mask text is what is left of it without the blanks around it and without the braces
around that, if it begins with one. `parse_eq_ok_iff_writes` says which texts are masks, and of
which: those whose body consists of tokens that the grammar writes for some items, and the mask is
what these items stand for.
-/

namespace FieldMask

namespace Mask

/-- The body of a text. A brace at its front has to be closed by another one at its end. -/
def IsBody (text body : List Char) : Prop :=
  (trim text = body ∧ body.head? ≠ some '\x7b') ∨ trim text = '\x7b' :: (body ++ ['\x7d'])

theorem body_eq_ok_iff {text chars : List Char} :
    (∃ offset, body text = .ok (offset, chars)) ↔ IsBody text chars := by
  unfold body IsBody
  split
  · rename_i inner htrim
    rw [htrim]
    split
    · rename_i hlast
      obtain ⟨front, rfl⟩ := List.getLast?_eq_some_iff.1 hlast
      simp only [List.dropLast_concat, Except.ok.injEq, Prod.mk.injEq, exists_eq_left',
        List.cons.injEq, true_and, List.append_cancel_right_eq]
      constructor
      · exact Or.inr
      · rintro (⟨rfl, h⟩ | rfl)
        · exact absurd rfl h
        · rfl
    · rename_i hlast
      simp only [reduceCtorEq, exists_false, List.cons.injEq, true_and, false_iff, not_or]
      constructor
      · rintro ⟨rfl, h⟩
        exact h rfl
      · rintro rfl
        simp at hlast
  · rename_i chars' hbrace
    simp only [Except.ok.injEq, Prod.mk.injEq, exists_eq_left']
    constructor
    · rintro rfl
      refine .inl ⟨rfl, fun h => ?_⟩
      obtain ⟨rest, hrest⟩ := List.head?_eq_some_iff.1 h
      exact hbrace _ hrest
    · rintro (⟨h, -⟩ | h)
      · exact h
      · exact absurd h (hbrace _)

/-- A text is read in two steps: its body is found, and then its tokens are read to the end. -/
theorem parse_eq_ok_iff_run {text : String} {m : Mask} :
    Mask.parse text = .ok m ↔ ∃ offset chars, body text.toList = .ok (offset, chars) ∧
      ∃ p, ParseState.run .initial (Lexeme.ofText offset chars) = .ok ⟨m.selectors, [], p⟩ := by
  obtain ⟨selectors⟩ := m
  simp only [Mask.parse, ParseState.run, bind_eq_ok, Prod.exists]
  refine exists_congr fun offset => exists_congr fun chars => and_congr_right fun _ => ?_
  constructor
  · rintro ⟨⟨current, outer, p⟩, hrun, h⟩
    refine ⟨p, hrun.trans ?_⟩
    split at h
    · rename_i houter
      obtain rfl : outer = [] := List.isEmpty_iff.1 houter
      cases pure_eq_ok.1 h
      rfl
    · exact absurd h throw_ne_ok
  · rintro ⟨p, hrun⟩
    exact ⟨_, hrun, rfl⟩

/-- A text is a mask if the tokens of its body write items, which stand for the mask. -/
theorem parse_eq_ok_iff {text : String} {m : Mask} :
    Mask.parse text = .ok m ↔ ∃ chars items, IsBody text.toList chars ∧
      Writes items (tokensOf chars) ∧ m = ⟨Selector.denoteAll items⟩ := by
  obtain ⟨selectors⟩ := m
  simp only [parse_eq_ok_iff_run, run_initial_iff, map_token_ofText, ← body_eq_ok_iff,
    Mask.mk.injEq]
  constructor
  · rintro ⟨offset, chars, hbody, items, hitems, h⟩
    exact ⟨chars, items, ⟨offset, hbody⟩, hitems, h⟩
  · rintro ⟨chars, items, ⟨offset, hbody⟩, hitems, h⟩
    exact ⟨offset, chars, hbody, items, hitems, h⟩

/--
**A text is a mask just if its body is one of the grammar**, and then it is the mask of what is
written: in each list of siblings, an item whose name is taken comes in place of the earlier one,
and any other comes behind.
-/
theorem parse_eq_ok_iff_writes {text : String} {m : Mask} :
    Mask.parse text = .ok m ↔ ∃ body tokens items, IsBody text.toList body ∧ Lexes body tokens ∧
      Writes items tokens ∧ m = ⟨Selector.denoteAll items⟩ := by
  rw [parse_eq_ok_iff]
  constructor
  · rintro ⟨body, items, hbody, hitems, hm⟩
    exact ⟨body, _, items, hbody, lexes_iff.2 rfl, hitems, hm⟩
  · rintro ⟨body, tokens, items, hbody, hlexes, hitems, hm⟩
    obtain rfl := lexes_iff.1 hlexes
    exact ⟨body, items, hbody, hitems, hm⟩

end Mask

end FieldMask
