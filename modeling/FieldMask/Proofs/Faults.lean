import FieldMask.Mask
import FieldMask.Pointer
import FieldMask.Proofs.Outcome

/-!
# First faults

A computation that goes through a tree stops at the first fault that it comes to. Where a fault is,
is told by a trail: the number of the branch that is taken at each level. Trails are compared like
words in a dictionary (`NotAfter`), and the first fault is the one whose trail is after no other.

`Reports F x` says that `x` fails just if there is a fault in `F`, and then in the first one. Going
through a list reports the faults of its elements (`reports_foldlM`), each of them behind the number
of its element. Faults that are told by where they are found have errors with those places
(`faultsAt`), and those below a selector are in what is found under its name (`faultsBelow`).
-/

namespace FieldMask

variable {ε α β γ : Type}

/-- The trail is the other one, or comes before it: the first number that differs is smaller. -/
def NotAfter (trail trail' : List Nat) : Prop := trail = trail' ∨ List.Lex (· < ·) trail trail'

/-- Faults: which error there is at the end of a trail. -/
abbrev Faults (ε : Type) := List Nat → ε → Prop

/-- No fault comes before the one at the end of the trail. -/
structure Faults.First (F : Faults ε) (trail : List Nat) (e : ε) : Prop where
  fault : F trail e
  least : ∀ trail' e', F trail' e' → NotAfter trail trail'

/-- The computation ends well if there are no faults, and in the first of them otherwise. -/
def Reports (F : Faults ε) : Except ε α → Prop
  | .ok _ => ∀ trail e, ¬F trail e
  | .error e => ∃ trail, F.First trail e

/-- The faults of the elements of a list, behind the numbers of the elements. -/
def faultsIn (F : Nat → α → Faults ε) (l : List α) : Faults ε
  | i :: trail, e => ∃ a, l[i]? = some a ∧ F i a trail e
  | [], _ => False

/-- What is found at segments from a place on, as errors with the whole places. -/
def faultsAt (error : Pointer → ε) (place : Pointer) (C : List Nat → List String → Prop) :
    Faults ε :=
  fun trail e => ∃ segments, C trail segments ∧ e = error ⟨place.segments ++ segments⟩

/-- The faults below a nested selector, in what is found under its name. -/
def faultsBelow (find : String → Option α) (F : String → List Selector → α → Faults ε)
    (s : Selector) : Faults ε :=
  fun trail e => ∃ name children a, s = .nested name children ∧ find name = some a ∧
    F name children a trail e

variable {F G : Faults ε} {x : Except ε α} {e : ε}

/-! ## Trails -/

theorem notAfter_nil (trail : List Nat) : NotAfter [] trail := by
  cases trail with
  | nil => exact .inl rfl
  | cons i trail => exact .inr .nil

theorem notAfter_cons {i : Nat} {trail trail' : List Nat} (h : NotAfter trail trail') :
    NotAfter (i :: trail) (i :: trail') :=
  h.imp (congrArg _) .cons

theorem NotAfter.succ {i j : Nat} {trail trail' : List Nat}
    (h : NotAfter (i :: trail) (j :: trail')) :
    NotAfter ((i + 1) :: trail) ((j + 1) :: trail') := by
  rcases h with h | h
  · obtain ⟨rfl, rfl⟩ := List.cons.inj h
    exact .inl rfl
  · cases h with
    | cons h => exact .inr (.cons h)
    | rel h => exact .inr (.rel (Nat.succ_lt_succ h))

/-! ## Reports -/

theorem Reports.congr (h : Reports F x) (hFG : ∀ trail e, F trail e ↔ G trail e) : Reports G x := by
  have heq : F = G := funext fun trail => funext fun e => propext (hFG trail e)
  exact heq ▸ h

theorem Reports.exists_error_iff (h : Reports F x) :
    (∃ e, x = .error e) ↔ ∃ trail e, F trail e := by
  cases x with
  | ok a => exact ⟨nofun, fun ⟨trail, e, hfault⟩ => absurd hfault (h trail e)⟩
  | error e =>
    obtain ⟨trail, hfirst⟩ := h
    exact ⟨fun _ => ⟨trail, e, hfirst.fault⟩, fun _ => ⟨e, rfl⟩⟩

theorem Reports.of_error (h : Reports F x) (hx : x = .error e) : ∃ trail, F.First trail e := by
  subst hx
  exact h

/-- What ends well after the computation adds no faults. -/
theorem Reports.bind {f : α → Except ε β} (h : Reports F x) (hf : ∀ a, ∃ b, f a = .ok b) :
    Reports F (x >>= f) := by
  cases x with
  | ok a =>
    obtain ⟨b, hb⟩ := hf a
    rw [bind_ok, hb]
    exact h
  | error e => exact h

/-- A fault right where the computation begins is the first one. -/
theorem reports_error (h : F [] e) : Reports F (.error e : Except ε α) :=
  ⟨[], h, fun trail _ _ => notAfter_nil trail⟩

/-! ## Places -/

theorem faultsAt_congr {error : Pointer → ε} {place : Pointer} {C D : List Nat → List String → Prop}
    {trail : List Nat} (h : ∀ trail segments, C trail segments ↔ D trail segments) :
    faultsAt error place C trail e ↔ faultsAt error place D trail e := by
  simp only [faultsAt, h]

/-- A computation that starts at the root has its errors at the places themselves. -/
theorem Reports.refused_iff {error : Pointer → ε} {C : List Nat → List String → Prop}
    (h : Reports (faultsAt error .root C) x) :
    ((∃ e, x = .error e) ↔ ∃ trail segments, C trail segments) ∧
      ∀ e, x = .error e → ∃ trail segments, C trail segments ∧
        (∀ trail' segments', C trail' segments' → NotAfter trail trail') ∧
        e = error ⟨segments⟩ := by
  constructor
  · rw [h.exists_error_iff]
    constructor
    · rintro ⟨trail, e, segments, hfound, -⟩
      exact ⟨trail, segments, hfound⟩
    · rintro ⟨trail, segments, hfound⟩
      exact ⟨trail, _, segments, hfound, rfl⟩
  · intro e he
    obtain ⟨trail, ⟨segments, hfound, rfl⟩, hleast⟩ := h.of_error he
    refine ⟨trail, segments, hfound, fun trail' segments' hfound' => ?_, rfl⟩
    exact hleast trail' _ ⟨segments', hfound', rfl⟩

/-! ## Lists -/

theorem faultsIn_succ {F : Nat → α → Faults ε} {a : α} {l : List α} {i : Nat} {trail : List Nat} :
    faultsIn F (a :: l) ((i + 1) :: trail) e ↔
      faultsIn (fun i => F (i + 1)) l (i :: trail) e :=
  Iff.rfl

theorem faultsIn_zero {F : Nat → α → Faults ε} {a : α} {l : List α} {trail : List Nat} :
    faultsIn F (a :: l) (0 :: trail) e ↔ F 0 a trail e := by
  simp [faultsIn]

theorem reports_faultsIn_nil {F : Nat → α → Faults ε} {b : β} :
    Reports (faultsIn F []) (.ok b : Except ε β) := by
  rintro (_ | ⟨i, trail⟩) e h
  · exact h
  · obtain ⟨a, ha, -⟩ := h
    cases ha

/-- The faults of the first element come before those of the others. -/
theorem Reports.cons {F : Nat → γ → Faults ε} {c : γ} {l : List γ} {f : α → Except ε β}
    (h : Reports (F 0 c) x) (hf : ∀ a, Reports (faultsIn (fun i => F (i + 1)) l) (f a)) :
    Reports (faultsIn F (c :: l)) (x >>= f) := by
  cases x with
  | error e =>
    -- The list is not gone through any further, and its later faults are all after this one.
    obtain ⟨trail, hfault, hleast⟩ := h
    refine ⟨0 :: trail, faultsIn_zero.2 hfault, ?_⟩
    rintro (_ | ⟨_ | j, trail'⟩) e' hfault'
    · exact hfault'.elim
    · exact notAfter_cons (hleast trail' e' (faultsIn_zero.1 hfault'))
    · exact .inr (.rel (Nat.succ_pos j))
  | ok a =>
    have hl := hf a
    rw [bind_ok]
    cases hfa : f a with
    | ok b =>
      rw [hfa] at hl
      rintro (_ | ⟨_ | i, trail⟩) e hfault
      · exact hfault
      · exact h trail e (faultsIn_zero.1 hfault)
      · exact hl (i :: trail) e (faultsIn_succ.1 hfault)
    | error e =>
      rw [hfa] at hl
      obtain ⟨_ | ⟨i, trail⟩, hfault, hleast⟩ := hl
      · exact hfault.elim
      · refine ⟨(i + 1) :: trail, faultsIn_succ.2 hfault, ?_⟩
        rintro (_ | ⟨_ | j, trail'⟩) e' hfault'
        · exact hfault'.elim
        · exact absurd (faultsIn_zero.1 hfault') (h trail' e')
        · exact (hleast (j :: trail') e' (faultsIn_succ.1 hfault')).succ

/-- **Going through a list reports the first fault of its elements.** -/
theorem reports_foldlM {f : β → α → Except ε β} {F : α → Faults ε} {l : List α} {b : β}
    (h : ∀ b, ∀ a ∈ l, Reports (F a) (f b a)) :
    Reports (faultsIn (fun _ => F) l) (l.foldlM f b) := by
  induction l generalizing b with
  | nil => exact reports_faultsIn_nil
  | cons a l ih =>
    rw [List.foldlM_cons]
    refine Reports.cons (F := fun _ => F) (h b a List.mem_cons_self) fun b' => ?_
    exact ih fun b a ha => h b a (List.mem_cons_of_mem _ ha)

/-! ## Selectors -/

section Below

variable {find : String → Option α} {below : String → List Selector → α → Faults ε} {s : Selector}
  {b : β}

theorem faultsBelow_nested_iff {name : String} {children : List Selector} {a : α}
    {trail : List Nat} (h : find name = some a) :
    faultsBelow find below (.nested name children) trail e ↔ below name children a trail e := by
  constructor
  · rintro ⟨_, _, a', heq, ha, hfault⟩
    obtain ⟨rfl, rfl⟩ := Selector.nested.inj heq
    obtain rfl := Option.some.inj (h.symm.trans ha)
    exact hfault
  · exact fun hfault => ⟨name, children, a, rfl, h, hfault⟩

/-- There are no faults below a selector that is not nested. -/
theorem reports_not_nested (h : ∀ name children, s ≠ .nested name children) :
    Reports (faultsBelow find below s) (.ok b : Except ε β) :=
  fun _ _ ⟨name, children, _, hs, _⟩ => h name children hs

/-- There are no faults below a selector that names nothing. -/
theorem reports_of_lacking (h : find s.name = none) :
    Reports (faultsBelow find below s) (.ok b : Except ε β) := by
  rintro trail e ⟨name, children, a, rfl, ha, -⟩
  cases h.symm.trans ha

end Below

end FieldMask
