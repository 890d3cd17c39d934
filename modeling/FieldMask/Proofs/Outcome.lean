import Mathlib.Data.List.Forall2

/-!
# Outcomes

What it says of a computation that may fail that it ended well, or in an error: rules for one step
after the other, for errors that are passed on as others, and for lists that are gone through in
order. A list ends well just if each of its elements does.

`Ends P E x` bounds both ways at once: the value of `x` has `P`, or its error has `E`. Two relations
compare computations: with `Keeps x y`, `y` may end well where `x` does not, but never in another
value, and with `EndAlike R x y` both fail, or both end well in values that are related by `R`.
-/

namespace FieldMask

variable {ε ε' α β γ δ : Type}

/-! ## Single steps -/

@[simp] theorem bind_ok {a : α} {f : α → Except ε β} : (Except.ok a >>= f) = f a := rfl

@[simp] theorem bind_eq_ok {x : Except ε α} {f : α → Except ε β} {b : β} :
    x >>= f = .ok b ↔ ∃ a, x = .ok a ∧ f a = .ok b := by
  cases x <;> simp [bind, Except.bind]

@[simp] theorem bind_eq_error {x : Except ε α} {f : α → Except ε β} {e : ε} :
    x >>= f = .error e ↔ x = .error e ∨ ∃ a, x = .ok a ∧ f a = .error e := by
  cases x <;> simp [bind, Except.bind]

/-- Two steps that both end well end well one after the other. -/
theorem exists_bind_eq_ok {x : Except ε α} {f : α → Except ε β} (hx : ∃ a, x = .ok a)
    (hf : ∀ a, x = .ok a → ∃ b, f a = .ok b) : ∃ b, x >>= f = .ok b := by
  obtain ⟨a, rfl⟩ := hx
  exact hf a rfl

/-- What follows a computation matters only for the value that it ends in. -/
theorem bind_congr_of_ok {x : Except ε α} {f g : α → Except ε β}
    (h : ∀ a, x = .ok a → f a = g a) : x >>= f = x >>= g := by
  cases x with
  | error e => rfl
  | ok a => exact h a rfl

@[simp] theorem map_eq_ok {x : Except ε α} {f : α → β} {b : β} :
    f <$> x = .ok b ↔ ∃ a, x = .ok a ∧ f a = b := by
  cases x <;> simp [Functor.map, Except.map]

@[simp] theorem pure_eq_ok {a b : α} : (pure a : Except ε α) = .ok b ↔ a = b := by
  simp [pure, Except.pure]

@[simp] theorem throw_ne_ok {e : ε} {a : α} : (throw e : Except ε α) ≠ .ok a := by
  simp [throw, throwThe, MonadExceptOf.throw]

@[simp] theorem mapError_eq_ok {x : Except ε α} {f : ε → ε'} {a : α} :
    x.mapError f = .ok a ↔ x = .ok a := by
  cases x <;> simp [Except.mapError]

@[simp] theorem mapError_eq_error {x : Except ε α} {f : ε → ε'} {e : ε'} :
    x.mapError f = .error e ↔ ∃ e', x = .error e' ∧ f e' = e := by
  cases x <;> simp [Except.mapError]

theorem mapError_bind {x : Except ε α} {f : ε → ε'} {g : α → Except ε β} :
    (x >>= g).mapError f = x.mapError f >>= fun a => (g a).mapError f := by
  cases x <;> rfl

@[simp] theorem discard_eq_ok {x : Except ε α} {u : Unit} :
    discard x = .ok u ↔ ∃ a, x = .ok a := by
  cases x <;> simp [discard, Functor.mapConst, Except.map]

theorem toOption_eq_some {x : Except ε α} {a : α} : x.toOption = some a ↔ x = .ok a := by
  cases x <;> simp [Except.toOption]

theorem exists_of_isSome_toOption {x : Except ε α} (h : x.toOption.isSome = true) :
    ∃ a, x = .ok a := by
  cases x with
  | ok a => exact ⟨a, rfl⟩
  | error e => cases h

theorem exists_of_any_toOption {x : Except ε α} {p : α → Bool} (h : x.toOption.any p = true) :
    ∃ a, x = .ok a ∧ p a = true := by
  cases x with
  | ok a => exact ⟨a, rfl, h⟩
  | error e => cases h

/-- The error that a computation ends in, if it does not end well. -/
def failure? : Except ε α → Option ε
  | .ok _ => none
  | .error e => some e

theorem exists_of_any_failure? {x : Except ε α} {p : ε → Bool} (h : (failure? x).any p = true) :
    ∃ e, x = .error e ∧ p e = true := by
  cases x with
  | ok a => cases h
  | error e => exact ⟨e, rfl, h⟩

/-! ## Lists -/

theorem mapM_eq_ok {f : α → Except ε β} {l : List α} {out : List β} :
    l.mapM f = .ok out ↔ List.Forall₂ (fun a b => f a = .ok b) l out := by
  induction l generalizing out with
  | nil => cases out <;> simp
  | cons a l ih =>
    simp only [List.mapM_cons, bind_eq_ok, pure_eq_ok, ih]
    constructor
    · rintro ⟨b, hb, bs, hbs, rfl⟩
      exact .cons hb hbs
    · intro h
      cases h with
      | cons hb hbs => exact ⟨_, hb, _, hbs, rfl⟩

/-- A list whose elements all end well ends well. -/
theorem exists_mapM_eq_ok {f : α → Except ε β} {l : List α} (h : ∀ a ∈ l, ∃ b, f a = .ok b) :
    ∃ out, l.mapM f = .ok out := by
  induction l with
  | nil => exact ⟨[], rfl⟩
  | cons a l ih =>
    obtain ⟨b, hb⟩ := h a List.mem_cons_self
    obtain ⟨bs, hbs⟩ := ih fun a ha => h a (List.mem_cons_of_mem _ ha)
    exact ⟨b :: bs, by simp [hb, hbs]⟩

theorem exists_right_of_mem {R : α → β → Prop} {as : List α} {bs : List β}
    (h : List.Forall₂ R as bs) {a : α} (ha : a ∈ as) : ∃ b ∈ bs, R a b := by
  induction h with
  | nil => cases ha
  | cons hab _ ih =>
    rcases List.mem_cons.1 ha with rfl | ha
    · exact ⟨_, List.mem_cons_self, hab⟩
    · obtain ⟨b, hb, hab⟩ := ih ha
      exact ⟨b, List.mem_cons_of_mem _ hb, hab⟩

theorem exists_left_of_mem {R : α → β → Prop} {as : List α} {bs : List β}
    (h : List.Forall₂ R as bs) {b : β} (hb : b ∈ bs) : ∃ a ∈ as, R a b :=
  exists_right_of_mem h.flip hb

theorem forall₂_congr_of_mem {R S : α → β → Prop} {as : List α} {bs : List β}
    (h : ∀ a ∈ as, ∀ b, R a b ↔ S a b) : List.Forall₂ R as bs ↔ List.Forall₂ S as bs := by
  induction as generalizing bs with
  | nil => cases bs <;> simp
  | cons a as ih =>
    obtain ⟨ha, has⟩ := List.forall_mem_cons.1 h
    cases bs with
    | nil => simp
    | cons b bs => rw [List.forall₂_cons, List.forall₂_cons, ha b, ih has]

/-- Two lists related to one list have the same image if their members for each element do. -/
theorem map_eq_of_forall₂ {R : α → β → Prop} {S : α → γ → Prop} {f : β → δ} {g : γ → δ}
    {as : List α} {bs : List β} {cs : List γ} (hb : List.Forall₂ R as bs)
    (hc : List.Forall₂ S as cs) (h : ∀ a ∈ as, ∀ b c, R a b → S a c → f b = g c) :
    bs.map f = cs.map g := by
  induction hb generalizing cs with
  | nil =>
    cases hc
    rfl
  | @cons a b as bs hab _ ih =>
    cases hc with
    | cons hac hc =>
      obtain ⟨ha, has⟩ := List.forall_mem_cons.1 h
      rw [List.map_cons, List.map_cons, ha _ _ hab hac, ih hc has]

/-- In a list that fails, some element fails. -/
theorem exists_mem_of_mapM_eq_error {f : α → Except ε β} {l : List α} {e : ε}
    (h : l.mapM f = .error e) : ∃ a ∈ l, f a = .error e := by
  induction l with
  | nil => cases h
  | cons first l ih =>
    rw [List.mapM_cons] at h
    rcases bind_eq_error.1 h with h | ⟨b, -, h⟩
    · exact ⟨first, List.mem_cons_self, h⟩
    · obtain h | ⟨bs, -, h⟩ := bind_eq_error.1 h
      · obtain ⟨a, ha, hfa⟩ := ih h
        exact ⟨a, List.mem_cons_of_mem _ ha, hfa⟩
      · cases h

/-- In numbered elements that fail, those before some element end well, and that one fails. -/
theorem exists_of_mapM_zipIdx_eq_error {f : α × Nat → Except ε β} {l : List α} {start : Nat} {e : ε}
    (h : (l.zipIdx start).mapM f = .error e) :
    ∃ front a back, l = front ++ a :: back ∧ (∀ x ∈ front, ∃ i b, f (x, i) = .ok b) ∧
      f (a, start + front.length) = .error e := by
  induction l generalizing start with
  | nil => cases h
  | cons first l ih =>
    rw [List.zipIdx_cons, List.mapM_cons] at h
    rcases bind_eq_error.1 h with h | ⟨b, hb, h⟩
    · exact ⟨[], first, l, rfl, List.forall_mem_nil _, h⟩
    · obtain h | ⟨bs, -, h⟩ := bind_eq_error.1 h
      · obtain ⟨front, a, back, rfl, hfront, ha⟩ := ih h
        refine ⟨first :: front, a, back, rfl, List.forall_mem_cons.2 ⟨⟨start, b, hb⟩, hfront⟩, ?_⟩
        rwa [List.length_cons, Nat.add_comm _ 1, ← Nat.add_assoc]
      · cases h

/-- What a list ends in comes from its elements. -/
theorem exists_of_mem_mapM {f : α → Except ε β} {l : List α} {out : List β}
    (h : l.mapM f = .ok out) {b : β} (hb : b ∈ out) : ∃ a ∈ l, f a = .ok b :=
  exists_left_of_mem (mapM_eq_ok.1 h) hb

/-- What a list ends in comes from the element at its place. -/
theorem exists_getElem?_of_mapM {f : α → Except ε β} {l : List α} {out : List β}
    (h : l.mapM f = .ok out) {i : ℕ} {b : β} (hb : out[i]? = some b) :
    ∃ a, l[i]? = some a ∧ f a = .ok b := by
  have hrel := mapM_eq_ok.1 h
  clear h
  induction hrel generalizing i with
  | nil => cases hb
  | @cons a b' l out hab _ ih =>
    cases i with
    | zero => exact ⟨a, rfl, Option.some.inj hb ▸ hab⟩
    | succ i => exact ih hb

theorem exists_getElem?_of_mapM_zipIdx {f : α × ℕ → Except ε β} {l : List α} {out : List β}
    (h : l.zipIdx.mapM f = .ok out) {i : ℕ} {b : β} (hb : out[i]? = some b) :
    ∃ a, l[i]? = some a ∧ f (a, i) = .ok b := by
  obtain ⟨⟨a, j⟩, ha, hf⟩ := exists_getElem?_of_mapM h hb
  rw [List.getElem?_zipIdx, Nat.zero_add] at ha
  obtain ⟨a', ha', heq⟩ := Option.map_eq_some_iff.1 ha
  obtain ⟨rfl, rfl⟩ := Prod.mk.inj heq
  exact ⟨a', ha', hf⟩

/-- A second run that gives every outcome of the first one for its element gives the same list. -/
theorem mapM_again {f g : α → Except ε β} {l : List α} {out : List β} (h : l.mapM f = .ok out)
    (hg : ∀ a ∈ l, ∀ b ∈ out, f a = .ok b → g a = .ok b) : l.mapM g = .ok out := by
  have hrel := mapM_eq_ok.1 h
  clear h
  refine mapM_eq_ok.2 ?_
  induction hrel with
  | nil => exact .nil
  | @cons a b l out hab _ ih =>
    refine .cons (hg a List.mem_cons_self b List.mem_cons_self hab) (ih fun a ha b hb => ?_)
    exact hg a (List.mem_cons_of_mem _ ha) b (List.mem_cons_of_mem _ hb)

/-- A run over numbered elements that gives every element gives the list. -/
theorem mapM_zipIdx_eq_self {f : α × ℕ → Except ε α} {l : List α} {start : ℕ}
    (h : ∀ a ∈ l, ∀ index, f (a, index) = .ok a) : (l.zipIdx start).mapM f = .ok l := by
  induction l generalizing start with
  | nil => rfl
  | cons a l ih =>
    obtain ⟨ha, hl⟩ := List.forall_mem_cons.1 h
    rw [List.zipIdx_cons, List.mapM_cons, ha, ih hl]
    rfl

/-- A list each of whose elements ends in what a function gives ends in what it gives for all. -/
theorem eq_map_of_mapM {f : α → Except ε β} {g : α → β} {l : List α} {out : List β}
    (h : l.mapM f = .ok out) (hg : ∀ a ∈ l, ∀ b, f a = .ok b → g a = b) : l.map g = out := by
  have hrel := mapM_eq_ok.1 h
  clear h
  induction hrel with
  | nil => rfl
  | @cons a b l out hab _ ih =>
    rw [List.map_cons, hg a List.mem_cons_self b hab]
    rw [ih fun a ha => hg a (List.mem_cons_of_mem _ ha)]

/-- Two runs over one list end in lists that are related if the outcomes of each element are. -/
theorem forall₂_of_mapM {R : β → γ → Prop} {f : α → Except ε β} {g : α → Except ε γ} {l : List α}
    {bs : List β} {cs : List γ} (hf : l.mapM f = .ok bs) (hg : l.mapM g = .ok cs)
    (h : ∀ a ∈ l, ∀ b c, f a = .ok b → g a = .ok c → R b c) : List.Forall₂ R bs cs := by
  have hbs := mapM_eq_ok.1 hf
  have hcs := mapM_eq_ok.1 hg
  clear hf hg
  induction hbs generalizing cs with
  | nil =>
    cases hcs
    exact .nil
  | @cons a b l bs hb _ ih =>
    cases hcs with
    | cons hc hcs =>
      refine .cons (h a List.mem_cons_self _ _ hb hc) ?_
      exact ih (fun a ha => h a (List.mem_cons_of_mem _ ha)) hcs

theorem forM_eq_ok {f : α → Except ε Unit} {l : List α} :
    l.forM f = .ok () ↔ ∀ a ∈ l, f a = .ok () := by
  induction l with
  | nil => simp
  | cons a l ih =>
    rw [List.forM_eq_forM, List.forM_cons, bind_eq_ok, ← List.forM_eq_forM, ih]
    simp only [List.forall_mem_cons]
    exact ⟨fun ⟨_, ha, hl⟩ => ⟨ha, hl⟩, fun ⟨ha, hl⟩ => ⟨(), ha, hl⟩⟩

/-- What every step keeps, a whole list keeps. -/
theorem foldlM_induct {f : β → α → Except ε β} {P : β → Prop} {l : List α} {b r : β}
    (step : ∀ b, ∀ a ∈ l, ∀ b', P b → f b a = .ok b' → P b') (hb : P b)
    (h : l.foldlM f b = .ok r) : P r := by
  induction l generalizing b with
  | nil => exact pure_eq_ok.1 h ▸ hb
  | cons a l ih =>
    obtain ⟨b', hb', h⟩ := bind_eq_ok.1 (List.foldlM_cons.symm.trans h)
    exact ih (fun b a ha => step b a (List.mem_cons_of_mem _ ha))
      (step b a List.mem_cons_self b' hb hb') h

/-- In a list that ends well, the step of every element does, from where it begins. -/
theorem exists_step_of_foldlM {f : β → α → Except ε β} {l : List α} {b r : β}
    (h : l.foldlM f b = .ok r) {a : α} (ha : a ∈ l) : ∃ b₁ b₂, f b₁ a = .ok b₂ := by
  induction l generalizing b with
  | nil => cases ha
  | cons first l ih =>
    obtain ⟨b', hb', h⟩ := bind_eq_ok.1 (List.foldlM_cons.symm.trans h)
    rcases List.mem_cons.1 ha with rfl | ha
    · exact ⟨b, b', hb'⟩
    · exact ih h ha

/-- What a run leaves a value with, it had at the beginning, or a step gave it that. -/
theorem exists_step_of_change {f : β → α → Except ε β} (g : β → γ) {l : List α} {b r : β}
    (h : l.foldlM f b = .ok r) :
    g r = g b ∨ ∃ a ∈ l, ∃ b₁ b₂, f b₁ a = .ok b₂ ∧ g b₂ ≠ g b₁ ∧ g b₂ = g r := by
  refine foldlM_induct (P := fun r => g r = g b ∨ ∃ a ∈ l, ∃ b₁ b₂, f b₁ a = .ok b₂ ∧
    g b₂ ≠ g b₁ ∧ g b₂ = g r) (fun b₁ a ha b₂ ih hstep => ?_) (.inl rfl) h
  by_cases hg : g b₂ = g b₁
  · rwa [hg]
  · exact .inr ⟨a, ha, b₁, b₂, hstep, hg, rfl⟩

/-- In a list that fails, the steps before some element end well, and the step of that one fails. -/
theorem exists_of_foldlM_eq_error {f : β → α → Except ε β} {l : List α} {b : β} {e : ε}
    (h : l.foldlM f b = .error e) :
    ∃ front a back b', l = front ++ a :: back ∧ front.foldlM f b = .ok b' ∧ f b' a = .error e := by
  induction l generalizing b with
  | nil => cases h
  | cons first l ih =>
    rw [List.foldlM_cons] at h
    rcases bind_eq_error.1 h with h | ⟨b₁, hb₁, h⟩
    · exact ⟨[], first, l, b, rfl, rfl, h⟩
    · obtain ⟨front, a, back, b', rfl, hfront, ha⟩ := ih h
      exact ⟨first :: front, a, back, b', rfl, List.foldlM_cons.trans (hb₁ ▸ hfront), ha⟩

/-- A list whose steps all end well from wherever they begin ends well. -/
theorem exists_foldlM_eq_ok {f : β → α → Except ε β} {l : List α} {b : β}
    (h : ∀ b, ∀ a ∈ l, ∃ b', f b a = .ok b') : ∃ r, l.foldlM f b = .ok r := by
  induction l generalizing b with
  | nil => exact ⟨b, rfl⟩
  | cons a l ih =>
    rw [List.foldlM_cons]
    refine exists_bind_eq_ok (h b a List.mem_cons_self) fun b' _ => ?_
    exact ih fun b a ha => h b a (List.mem_cons_of_mem _ ha)

/-- What each step of two runs over one list keeps between them, the whole runs keep. -/
theorem foldlM_induct₂ {f : β → α → Except ε β} {g : γ → α → Except ε' γ} {R : β → γ → Prop}
    {l : List α} {b b' : β} {c c' : γ}
    (step : ∀ b c, ∀ a ∈ l, ∀ b' c', R b c → f b a = .ok b' → g c a = .ok c' → R b' c')
    (h : R b c) (hf : l.foldlM f b = .ok b') (hg : l.foldlM g c = .ok c') : R b' c' := by
  induction l generalizing b c with
  | nil => exact pure_eq_ok.1 hf ▸ pure_eq_ok.1 hg ▸ h
  | cons a l ih =>
    rw [List.foldlM_cons] at hf hg
    obtain ⟨b₁, hb, hf⟩ := bind_eq_ok.1 hf
    obtain ⟨c₁, hc, hg⟩ := bind_eq_ok.1 hg
    refine ih (fun b c a ha => step b c a (List.mem_cons_of_mem _ ha)) ?_ hf hg
    exact step b c a List.mem_cons_self b₁ c₁ h hb hc

/-- To go through a list and keep some of the outcomes is to keep them once all are there. -/
theorem filterMapM_eq {f : α → Except ε β} {p : β → Option γ} {g : α → Except ε (Option γ)}
    (h : ∀ a, g a = do return p (← f a)) (l : List α) :
    l.filterMapM g = do return (← l.mapM f).filterMap p := by
  induction l with
  | nil => rfl
  | cons a l ih =>
    rw [List.filterMapM_cons, List.mapM_cons, ih, h]
    cases f a with
    | error e => rfl
    | ok b =>
      cases hb : p b <;> cases l.mapM f <;>
        simp [bind, Except.bind, pure, Except.pure, hb]

theorem mapM_congr_of_mem {f g : α → Except ε β} {l : List α} (h : ∀ a ∈ l, f a = g a) :
    l.mapM f = l.mapM g := by
  induction l with
  | nil => rfl
  | cons a l ih =>
    rw [List.mapM_cons, List.mapM_cons, h a List.mem_cons_self,
      ih fun a ha => h a (List.mem_cons_of_mem _ ha)]

theorem foldlM_congr_of_mem {f g : β → α → Except ε β} {l : List α} (b : β)
    (h : ∀ a ∈ l, ∀ b, f b a = g b a) : l.foldlM f b = l.foldlM g b := by
  induction l generalizing b with
  | nil => rfl
  | cons a l ih =>
    rw [List.foldlM_cons, List.foldlM_cons, h a List.mem_cons_self]
    exact bind_congr fun b => ih b fun a ha => h a (List.mem_cons_of_mem _ ha)

/-! ## Ends -/

/-- The value that a computation ends in has the one property, or its error the other. -/
def Ends (P : α → Prop) (E : ε → Prop) : Except ε α → Prop
  | .ok a => P a
  | .error e => E e

variable {P : α → Prop} {Q : β → Prop} {E : ε → Prop} {x : Except ε α}

theorem Ends.of_ok {a : α} (h : Ends P E x) (hx : x = .ok a) : P a := by
  subst hx
  exact h

theorem Ends.of_error {e : ε} (h : Ends P E x) (hx : x = .error e) : E e := by
  subst hx
  exact h

theorem ends_of_eq_ok {a : α} (hx : x = .ok a) (ha : P a) : Ends P E x := by
  subst hx
  exact ha

theorem ends_pure {a : α} (ha : P a) : Ends P E (pure a : Except ε α) := ha

theorem Ends.bind {f : α → Except ε β} (h : Ends P E x) (hf : ∀ a, P a → Ends Q E (f a)) :
    Ends Q E (x >>= f) := by
  cases x with
  | ok a => exact hf a h
  | error e => exact h

theorem Ends.imp {P' : α → Prop} {E' : ε → Prop} (h : Ends P E x) (hp : ∀ a, P a → P' a)
    (he : ∀ e, E e → E' e) : Ends P' E' x := by
  cases x with
  | ok a => exact hp a h
  | error e => exact he e h

theorem ends_foldlM {f : β → α → Except ε β} {l : List α} {b : β}
    (step : ∀ b, ∀ a ∈ l, Q b → Ends Q E (f b a)) (hb : Q b) : Ends Q E (l.foldlM f b) := by
  induction l generalizing b with
  | nil => exact ends_pure hb
  | cons a l ih =>
    rw [List.foldlM_cons]
    refine (step b a List.mem_cons_self hb).bind fun b' hb' => ?_
    exact ih (fun b a ha => step b a (List.mem_cons_of_mem _ ha)) hb'

/-- If each step ends well just where its element has a property, a list does where all have it. -/
theorem ends_foldlM_each {f : β → α → Except ε β} {l : List α} {b : β}
    (step : ∀ b, ∀ a ∈ l, Ends (fun _ => P a) (fun e => E e ∧ ¬P a) (f b a)) :
    Ends (fun _ => ∀ a ∈ l, P a) (fun e => E e ∧ ¬∀ a ∈ l, P a) (l.foldlM f b) := by
  induction l generalizing b with
  | nil => exact List.forall_mem_nil P
  | cons a l ih =>
    have ha := step b a List.mem_cons_self
    rw [List.foldlM_cons]
    cases hx : f b a with
    | error e =>
      obtain ⟨he, hn⟩ := ha.of_error hx
      exact ⟨he, fun hall => hn (hall a List.mem_cons_self)⟩
    | ok b' =>
      have hl := ih (b := b') fun b a hmem => step b a (List.mem_cons_of_mem _ hmem)
      refine hl.imp (fun _ hall => List.forall_mem_cons.2 ⟨ha.of_ok hx, hall⟩) ?_
      rintro e ⟨he, hn⟩
      exact ⟨he, fun hall => hn (List.forall_mem_cons.1 hall).2⟩

theorem ends_mapM {f : α → Except ε β} {l : List α} (h : ∀ a ∈ l, Ends Q E (f a)) :
    Ends (fun out => ∀ b ∈ out, Q b) E (l.mapM f) := by
  induction l with
  | nil => exact List.forall_mem_nil Q
  | cons a l ih =>
    rw [List.mapM_cons]
    refine (h a List.mem_cons_self).bind fun b hb => ?_
    refine (ih fun a ha => h a (List.mem_cons_of_mem _ ha)).bind fun bs hbs => ?_
    exact ends_pure (List.forall_mem_cons.2 ⟨hb, hbs⟩)

/-! ## Outcomes that are kept -/

/-- Where the first computation ends well, the second one ends in the same value. -/
def Keeps (x y : Except ε α) : Prop := ∀ a, x = .ok a → y = .ok a

theorem Keeps.refl (x : Except ε α) : Keeps x x := fun _ h => h

theorem Keeps.bind {y : Except ε α} {f g : α → Except ε β} (h : Keeps x y)
    (hf : ∀ a, x = .ok a → Keeps (f a) (g a)) : Keeps (x >>= f) (y >>= g) := by
  intro b hb
  obtain ⟨a, hx, hfa⟩ := bind_eq_ok.1 hb
  exact bind_eq_ok.2 ⟨a, h a hx, hf a hx b hfa⟩

theorem Keeps.discard {y : Except ε α} (h : Keeps x y) : Keeps (discard x) (discard y) := by
  intro u hu
  obtain ⟨a, hx⟩ := discard_eq_ok.1 hu
  exact discard_eq_ok.2 ⟨a, h a hx⟩

theorem Keeps.mapError {y : Except ε α} (h : Keeps x y) (f g : ε → ε') :
    Keeps (x.mapError f) (y.mapError g) :=
  fun a ha => mapError_eq_ok.2 (h a (mapError_eq_ok.1 ha))

theorem keeps_mapM {f g : α → Except ε β} {l : List α} (h : ∀ a ∈ l, Keeps (f a) (g a)) :
    Keeps (l.mapM f) (l.mapM g) := by
  induction l with
  | nil => exact Keeps.refl _
  | cons a l ih =>
    obtain ⟨ha, hl⟩ := List.forall_mem_cons.1 h
    rw [List.mapM_cons, List.mapM_cons]
    exact ha.bind fun b _ => (ih hl).bind fun bs _ => Keeps.refl _

theorem keeps_foldlM {f g : β → α → Except ε β} {l : List α} (b : β)
    (h : ∀ b, ∀ a ∈ l, Keeps (f b a) (g b a)) : Keeps (l.foldlM f b) (l.foldlM g b) := by
  induction l generalizing b with
  | nil => exact Keeps.refl _
  | cons a l ih =>
    rw [List.foldlM_cons, List.foldlM_cons]
    refine (h b a List.mem_cons_self).bind fun b' _ => ?_
    exact ih b' fun b a ha => h b a (List.mem_cons_of_mem _ ha)

/-! ## Outcomes that go together -/

/-- Both computations end well, in related values, or both fail. -/
def EndAlike (R : α → β → Prop) : Except ε α → Except ε' β → Prop
  | .ok a, .ok b => R a b
  | .error _, .error _ => True
  | _, _ => False

theorem endAlike_iff {R : α → β → Prop} {y : Except ε' β} :
    EndAlike R x y ↔ ((∃ a, x = .ok a) ↔ ∃ b, y = .ok b) ∧
      ∀ a b, x = .ok a → y = .ok b → R a b := by
  cases x <;> cases y <;> simp [EndAlike]

theorem EndAlike.bind {R : α → β → Prop} {S : γ → δ → Prop} {y : Except ε' β} {f : α → Except ε γ}
    {g : β → Except ε' δ} (h : EndAlike R x y) (hf : ∀ a b, R a b → EndAlike S (f a) (g b)) :
    EndAlike S (x >>= f) (y >>= g) := by
  cases x with
  | ok a =>
    cases y with
    | ok b => exact hf a b h
    | error e => exact h.elim
  | error e =>
    cases y with
    | ok b => exact h.elim
    | error e' => exact trivial

end FieldMask
