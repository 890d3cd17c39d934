import FieldMask.Lint
import FieldMask.Proofs.Outcome

/-!
# Findings that agree with an outcome

Loading stops at the first thing that is wrong. Linting goes on, but what it finds first should be
that very thing: `Agrees R x found` says so of the computation `x` and of the findings, with errors
and findings related by `R`. Steps that agree, agree one after the other (`Agrees.bind`), and so do
the steps that go through a list (`agrees_forM`), whatever is found after the first error.
-/

namespace FieldMask

namespace Lint

variable {ε ε' α β : Type} {found more : List Located}

/-- The first finding that is an error. -/
def firstError? (found : List Located) : Option Located := found.find? (·.2.severity == .error)

@[simp] theorem firstError?_nil : firstError? [] = none := rfl

theorem firstError?_cons {l : Located} (h : l.2.severity = .error) :
    firstError? (l :: found) = some l := by
  rw [firstError?, List.find?_cons_of_pos]
  simp [h]

theorem firstError?_append_of_none (h : firstError? found = none) :
    firstError? (found ++ more) = firstError? more := by
  rw [firstError?, List.find?_append, ← firstError?, h]
  rfl

theorem firstError?_append_of_some {l : Located} (h : firstError? found = some l) :
    firstError? (found ++ more) = some l := by
  rw [firstError?, List.find?_append, ← firstError?, h]
  rfl

/--
If the computation ends well, none of the findings is an error; if it fails, the first error that is
found is related to that.
-/
def Agrees (R : ε → Located → Prop) (x : Except ε α) (found : List Located) : Prop :=
  match x with
  | .ok _ => firstError? found = none
  | .error e => ∃ l, firstError? found = some l ∧ R e l

variable {R R' : ε → Located → Prop} {x : Except ε α}

theorem Agrees.of_ok {a : α} (h : Agrees R x found) (hx : x = .ok a) :
    firstError? found = none := by
  subst hx
  exact h

theorem Agrees.of_error {e : ε} (h : Agrees R x found) (hx : x = .error e) :
    ∃ l, firstError? found = some l ∧ R e l := by
  subst hx
  exact h

/-- The computation ends well just if no error is found. -/
theorem Agrees.exists_ok_iff (h : Agrees R x found) :
    (∃ a, x = .ok a) ↔ firstError? found = none := by
  cases x with
  | ok a => exact ⟨fun _ => h, fun _ => ⟨a, rfl⟩⟩
  | error e =>
    obtain ⟨l, hl, -⟩ := h
    simp [hl]

theorem Agrees.imp (h : Agrees R x found) (hR : ∀ e l, x = .error e → R e l → R' e l) :
    Agrees R' x found := by
  cases x with
  | ok a => exact h
  | error e =>
    obtain ⟨l, hl, hrel⟩ := h
    exact ⟨l, hl, hR e l rfl hrel⟩

theorem Agrees.mapError {g : ε → ε'} {R' : ε' → Located → Prop} (h : Agrees R x found)
    (hR : ∀ e l, x = .error e → R e l → R' (g e) l) : Agrees R' (x.mapError g) found := by
  cases x with
  | ok a => exact h
  | error e =>
    obtain ⟨l, hl, hrel⟩ := h
    exact ⟨l, hl, hR e l rfl hrel⟩

theorem Agrees.discard (h : Agrees R x found) : Agrees R (discard x) found := by
  cases x with
  | ok a => exact h
  | error e => exact h

/-- What is found before does not matter if none of it is an error. -/
theorem Agrees.after (h : Agrees R x more) (hw : firstError? found = none) :
    Agrees R x (found ++ more) := by
  cases x with
  | ok a => exact (firstError?_append_of_none hw).trans h
  | error e =>
    obtain ⟨l, hl, hrel⟩ := h
    exact ⟨l, (firstError?_append_of_none hw).trans hl, hrel⟩

/-- What is found after an error does not matter. -/
theorem Agrees.bind {f : α → Except ε β} (h : Agrees R x found)
    (hf : ∀ a, x = .ok a → Agrees R (f a) more) : Agrees R (x >>= f) (found ++ more) := by
  cases x with
  | ok a => exact (hf a rfl).after h
  | error e =>
    obtain ⟨l, hl, hrel⟩ := h
    exact ⟨l, firstError?_append_of_some hl, hrel⟩

theorem Agrees.bind_pure {f : α → β} (h : Agrees R x found) :
    Agrees R (x >>= fun a => pure (f a)) found := by
  cases x with
  | ok a => exact h
  | error e => exact h

/-- The first error of a list is found at the element that fails. -/
theorem agrees_forM {f : α → Except ε Unit} {g : α → List Located} {S : α → ε → Located → Prop}
    {l : List α} (h : ∀ a ∈ l, Agrees (S a) (f a) (g a)) :
    Agrees (fun e found => ∃ a ∈ l, f a = .error e ∧ S a e found) (l.forM f) (l.flatMap g) := by
  induction l with
  | nil => exact firstError?_nil
  | cons a l ih =>
    obtain ⟨ha, hl⟩ := List.forall_mem_cons.1 h
    rw [List.flatMap_cons]
    refine (ha.imp ?_).bind fun _ _ => (ih hl).imp ?_
    · exact fun e found he hrel => ⟨a, List.mem_cons_self, he, hrel⟩
    · exact fun e found _ ⟨b, hb, hrel⟩ => ⟨b, List.mem_cons_of_mem _ hb, hrel⟩

end Lint

end FieldMask
