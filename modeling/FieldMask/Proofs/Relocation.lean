import FieldMask.Marshal
import FieldMask.Proofs.Outcome

/-!
# Computations that are told a place

A computation that is told at which place its value stands puts that place in front of those in its
errors. So wherever it is placed, it ends in the same value, or in one error that is moved to the
place. `Relocates` says so of a computation, but for errors that stay where they are. It holds of
steps one after the other (`Relocates.bind`), of the steps through a list (`relocates_mapM`,
`relocates_foldlM`), and of a computation that is placed at a child (`Relocates.child`).
-/

namespace FieldMask

/-! ## Errors below a place -/

/-- A place as seen from a place above it, put below that one. -/
def Pointer.below (front p : Pointer) : Pointer := ⟨front.segments ++ p.segments⟩

/-- The error at its place below another one; an error of models has no place. -/
def MaskError.below (front : Pointer) : MaskError → MaskError
  | .inconsistent e => .inconsistent ⟨front.below e.place⟩
  | e => e

/-- The error at its place below another one; an error of models has no place. -/
def MarshalError.below (front : Pointer) : MarshalError → MarshalError
  | .mask e => .mask (e.below front)
  | .invalidValue place expected actual => .invalidValue (front.below place) expected actual
  | .unmatchedType place tag => .unmatchedType (front.below place) tag
  | .model e => .model e

/-- The place of an inconsistency. -/
def MaskError.place? : MaskError → Option Pointer
  | .inconsistent e => some e.place
  | _ => none

/-- The place in the error, if there is one. -/
def MarshalError.place? : MarshalError → Option Pointer
  | .mask e => e.place?
  | .invalidValue place _ _ => some place
  | .unmatchedType place _ => some place
  | .model _ => none

namespace Pointer

theorem below_root (p : Pointer) : p.below root = p := by
  rw [below, root, List.append_nil]

theorem below_child (front p : Pointer) (name : String) :
    (front.child name).below p = front.below ((child root name).below p) := by
  simp [below, child, root]

end Pointer

theorem MaskError.below_child (front : Pointer) (name : String) (e : MaskError) :
    e.below (front.child name) = (e.below (.child .root name)).below front := by
  cases e with
  | inconsistent e => exact congrArg (fun p => inconsistent ⟨p⟩) (Pointer.below_child _ _ _)
  | _ => rfl

theorem MarshalError.below_child (front : Pointer) (name : String) (e : MarshalError) :
    e.below (front.child name) = (e.below (.child .root name)).below front := by
  cases e with
  | mask e => exact congrArg mask (MaskError.below_child _ _ _)
  | invalidValue place _ _ =>
    exact congrArg (fun p => invalidValue p _ _) (Pointer.below_child _ _ _)
  | unmatchedType place _ => exact congrArg (fun p => unmatchedType p _) (Pointer.below_child _ _ _)
  | model e => rfl

theorem MarshalError.below_root (e : MarshalError) : e.below .root = e := by
  unfold below
  split
  · rename_i e
    cases e <;> rfl
  all_goals rfl

theorem MaskError.place?_below (front : Pointer) (e : MaskError) :
    (e.below front).place? = e.place?.map front.below := by
  cases e <;> rfl

theorem MarshalError.place?_below (front : Pointer) (e : MarshalError) :
    (e.below front).place? = e.place?.map front.below := by
  cases e with
  | mask e => exact MaskError.place?_below front e
  | _ => rfl

/-- The first segment of the place, if there is one, has the property. -/
def Heads (P : String → Prop) (place? : Option Pointer) : Prop :=
  ∀ p, place? = some p → ∀ name, p.segments.head? = some name → P name

theorem heads_none {P : String → Prop} : Heads P none := nofun

theorem heads_root {P : String → Prop} : Heads P (some .root) := by
  intro p hp name hname
  obtain rfl := Option.some.inj hp
  cases hname

theorem heads_below_child {P : String → Prop} {name : String} (h : P name)
    (place? : Option Pointer) : Heads P (place?.map (Pointer.below (.child .root name))) := by
  intro p hp first hfirst
  obtain ⟨q, -, rfl⟩ := Option.map_eq_some_iff.1 hp
  obtain rfl := Option.some.inj hfirst
  exact h

/-! ## Computations -/

section Relocates

variable {ε ε' α β γ : Type} {move : Pointer → ε → ε} {Moved Moved' Fixed Fixed' : ε → Prop}
  {f : Pointer → Except ε α}

/--
Wherever the computation is placed, it ends in the same value, in one error that is moved to the
place, or in one that stays as it is.
-/
def Relocates (move : Pointer → ε → ε) (Moved Fixed : ε → Prop) (f : Pointer → Except ε α) :
    Prop :=
  (∃ a, ∀ p, f p = .ok a) ∨ (∃ e, Moved e ∧ ∀ p, f p = .error (move p e)) ∨
    ∃ e, Fixed e ∧ ∀ p, f p = .error e

theorem relocates_ok (a : α) : Relocates move Moved Fixed fun _ => (.ok a : Except ε α) :=
  .inl ⟨a, fun _ => rfl⟩

theorem relocates_error {e : ε} (h : Moved e) :
    Relocates move Moved Fixed fun p => (.error (move p e) : Except ε α) :=
  .inr (.inl ⟨e, h, fun _ => rfl⟩)

theorem relocates_fixed {e : ε} (h : Fixed e) :
    Relocates move Moved Fixed fun _ => (.error e : Except ε α) :=
  .inr (.inr ⟨e, h, fun _ => rfl⟩)

/-- A computation whose errors have no place ends alike at every place. -/
theorem relocates_const (x : Except ε α)
    (h : ∀ e, x = .error e → Moved e ∧ ∀ p, move p e = e) :
    Relocates move Moved Fixed fun _ => x := by
  cases x with
  | ok a => exact relocates_ok a
  | error e => exact .inr (.inl ⟨e, (h e rfl).1, fun p => congrArg _ ((h e rfl).2 p).symm⟩)

theorem Relocates.imp (h : Relocates move Moved Fixed f) (hm : ∀ e, Moved e → Moved' e)
    (hf : ∀ e, Fixed e → Fixed' e) : Relocates move Moved' Fixed' f := by
  rcases h with h | ⟨e, he, h⟩ | ⟨e, he, h⟩
  · exact .inl h
  · exact .inr (.inl ⟨e, hm e he, h⟩)
  · exact .inr (.inr ⟨e, hf e he, h⟩)

/-- What ends well at one place does so at every place. -/
theorem Relocates.eq_ok (h : Relocates move Moved Fixed f) {p : Pointer} {a : α} (hp : f p = .ok a)
    (q : Pointer) : f q = .ok a := by
  rcases h with ⟨b, h⟩ | ⟨e, -, h⟩ | ⟨e, -, h⟩
  · rw [h q, ← h p, hp]
  · cases hp.symm.trans (h p)
  · cases hp.symm.trans (h p)

theorem Relocates.congr {g : Pointer → Except ε α} (h : Relocates move Moved Fixed f)
    (hfg : ∀ p, g p = f p) : Relocates move Moved Fixed g :=
  funext hfg ▸ h

theorem Relocates.bind {g : Pointer → α → Except ε β} (h : Relocates move Moved Fixed f)
    (hg : ∀ a, (∃ p, f p = .ok a) → Relocates move Moved Fixed fun p => g p a) :
    Relocates move Moved Fixed fun p => f p >>= g p := by
  rcases h with ⟨a, h⟩ | ⟨e, he, h⟩ | ⟨e, he, h⟩
  · refine (hg a ⟨.root, h .root⟩).congr fun p => ?_
    rw [h, bind_ok]
  · exact .inr (.inl ⟨e, he, fun p => bind_eq_error.2 (.inl (h p))⟩)
  · exact .inr (.inr ⟨e, he, fun p => bind_eq_error.2 (.inl (h p))⟩)

theorem Relocates.map (h : Relocates move Moved Fixed f) (g : α → β) :
    Relocates move Moved Fixed fun p => do return g (← f p) :=
  h.bind fun a _ => relocates_ok (g a)

/-- A computation at a child has the name of the child before its places. -/
theorem Relocates.child (h : Relocates move Moved Fixed f) {name : String}
    (hmove : ∀ p e, move (p.child name) e = move p (move (.child .root name) e))
    (hm : ∀ e, Moved e → Moved' (move (.child .root name) e)) :
    Relocates move Moved' Fixed fun p => f (p.child name) := by
  rcases h with ⟨a, h⟩ | ⟨e, he, h⟩ | ⟨e, he, h⟩
  · exact .inl ⟨a, fun p => h _⟩
  · exact .inr (.inl ⟨_, hm e he, fun p => (h _).trans (congrArg _ (hmove p e))⟩)
  · exact .inr (.inr ⟨e, he, fun p => h _⟩)

theorem Relocates.mapError {move' : Pointer → ε' → ε'} {Moved' Fixed' : ε' → Prop}
    {g : ε → ε'} (h : Relocates move Moved Fixed f) (hmove : ∀ p e, g (move p e) = move' p (g e))
    (hm : ∀ e, Moved e → Moved' (g e)) (hf : ∀ e, Fixed e → Fixed' (g e)) :
    Relocates move' Moved' Fixed' fun p => (f p).mapError g := by
  rcases h with ⟨a, h⟩ | ⟨e, he, h⟩ | ⟨e, he, h⟩
  · exact .inl ⟨a, fun p => mapError_eq_ok.2 (h p)⟩
  · exact .inr (.inl ⟨g e, hm e he, fun p => mapError_eq_error.2 ⟨_, h p, hmove p e⟩⟩)
  · exact .inr (.inr ⟨g e, hf e he, fun p => mapError_eq_error.2 ⟨_, h p, rfl⟩⟩)

/-- The first element that fails does so at every place. -/
theorem relocates_mapM {g : Pointer → γ → Except ε α} {l : List γ}
    (h : ∀ a ∈ l, Relocates move Moved Fixed fun p => g p a) :
    Relocates move Moved Fixed fun p => l.mapM (g p) := by
  induction l with
  | nil => exact relocates_ok []
  | cons a l ih =>
    obtain ⟨ha, hl⟩ := List.forall_mem_cons.1 h
    refine Relocates.congr (ha.bind fun b _ => ?_) fun p => List.mapM_cons
    exact (ih hl).map (b :: ·)

theorem relocates_foldlM {g : Pointer → α → γ → Except ε α} {l : List γ} (start : α)
    (h : ∀ b, ∀ a ∈ l, Relocates move Moved Fixed fun p => g p b a) :
    Relocates move Moved Fixed fun p => l.foldlM (g p) start := by
  induction l generalizing start with
  | nil => exact relocates_ok start
  | cons a l ih =>
    refine Relocates.congr ((h start a List.mem_cons_self).bind fun b _ => ?_)
      fun p => List.foldlM_cons
    exact ih b fun b a ha => h b a (List.mem_cons_of_mem _ ha)

end Relocates

end FieldMask
