import FieldMask.Command.Basic
import FieldMask.Proofs.Outcome
import FieldMask.Proofs.Keyed
import Mathlib

/-!
# What is assumed of the parser of arguments

Arguments are `Written` out if each operand stands for itself, each option is given by its long name
and the value of an option is the next argument. A parser is `Lawful` if it sorts such arguments out
as they are written. That says nothing about short names, attached values and what a parser does
with anything else; what is proved of commands holds for every lawful parser, and the installed one
is lawful (`installed_lawful`).
-/

namespace FieldMask

/-- The argument does not look like an option: there is no hyphen in front, or nothing else. -/
def IsOperand (arg : String) : Prop := arg.toList.head? = some '-' → arg = "-"

instance (arg : String) : Decidable (IsOperand arg) := inferInstanceAs (Decidable (_ → _))

theorem isOperand_iff {arg : String} : IsOperand arg ↔ ∀ c rest, arg.toList ≠ '-' :: c :: rest := by
  refine ⟨fun h c rest ht => ?_, fun h hhead => ?_⟩
  · rw [h (by rw [ht]; rfl)] at ht
    cases ht
  · rw [← String.toList_inj]
    cases ht : arg.toList with
    | nil =>
      rw [ht] at hhead
      cases hhead
    | cons d rest =>
      rw [ht] at hhead
      obtain rfl := Option.some.inj hhead
      cases rest with
      | nil => rfl
      | cons c rest => exact absurd ht (h c rest)

theorem IsOperand.ne {arg : String} (h : IsOperand arg) {c : Char} {rest : List Char} :
    arg.toList ≠ '-' :: c :: rest :=
  isOperand_iff.1 h c rest

/-- The long names of the options are different, and none is empty or has an equals sign. -/
structure CommandSpec.Proper (spec : CommandSpec) : Prop where
  nodup : (spec.options.map (·.long)).Nodup
  nonempty : ∀ option ∈ spec.options, option.long ≠ ""
  unsplit : ∀ option ∈ spec.options, '=' ∉ option.long.toList

namespace Arguments

/-- The arguments are written out, and mean what they are sorted into. -/
inductive Written (options : List OptionSpec) : List String → Arguments → Prop
  | nil : Written options [] {}
  | operand {arg : String} {rest : List String} {a : Arguments} (harg : IsOperand arg)
      (h : Written options rest a) :
      Written options (arg :: rest) { a with operands := arg :: a.operands }
  | flag {option : OptionSpec} {rest : List String} {a : Arguments} (ho : option ∈ options)
      (hv : option.value = none) (hh : option.asksHelp = false) (h : Written options rest a) :
      Written options (("--" ++ option.long) :: rest)
        { a with options := (option.long, none) :: a.options }
  | value {option : OptionSpec} {kind : ValueKind} {value : String} {rest : List String}
      {a : Arguments} (ho : option ∈ options) (hv : option.value = some kind)
      (hvalue : IsOperand value) (hk : kind.accepts value = true) (h : Written options rest a) :
      Written options (("--" ++ option.long) :: value :: rest)
        { a with options := (option.long, some value) :: a.options }

end Arguments

/-- The parser sorts out arguments that are written out, no option twice, as they are written. -/
structure ArgumentParser.Lawful (parser : ArgumentParser) : Prop where
  sort_written {spec : CommandSpec} {args : List String} {a : Arguments} (hs : spec.Proper)
    (h : a.Written spec.options args) (hn : (Keyed.keys a.options).Nodup)
    (hk : List.Forall₂ (fun kind arg => kind.accepts arg = true) spec.operands a.operands) :
    parser.sort spec args = .ok a

/-! ## The installed parser -/

namespace Arguments

variable {spec : CommandSpec} {option : OptionSpec} {a b : Arguments} {arg : String}
  {rest : List String} {value : Option String}

/-- The arguments of both, the first before the second. -/
def append (a b : Arguments) : Arguments := ⟨a.operands ++ b.operands, a.options ++ b.options⟩

theorem add_eq_ok (value : Option String) (hh : option.asksHelp = true → value.isSome = true)
    (hs : suits option value = true) (hn : option.long ∉ Keyed.keys a.options) :
    a.add option value = .ok { a with options := a.options ++ [(option.long, value)] } := by
  have hhas : a.has option.long = false := by
    rw [has, Keyed.lookup_eq_none_iff.2 hn]
    rfl
  rw [add, if_neg, if_neg]
  · simp [hs, hhas]
  · simpa [Option.isNone_iff_eq_none, Option.isSome_iff_ne_none] using hh

theorem addOperand_eq_ok {kind : ValueKind}
    (hk : spec.operands[a.operands.length]? = some kind) (ha : kind.accepts arg = true) :
    a.addOperand spec arg = .ok { a with operands := a.operands ++ [arg] } := by
  rw [addOperand, hk, Option.any_some, if_pos ha]

theorem known_eq_ok (hs : spec.Proper) (ho : option ∈ spec.options) :
    known spec (·.long == option.long) = .ok option := by
  have hfind : spec.options.find? (·.long == option.long) = some option := by
    refine (List.find?_eq_some_iff_append).2 ⟨beq_self_eq_true _, ?_⟩
    obtain ⟨front, back, hsplit⟩ := List.append_of_mem ho
    refine ⟨front, back, hsplit, fun other hother => ?_⟩
    have hnodup := hs.nodup
    rw [hsplit, List.map_append, List.map_cons, List.nodup_append] at hnodup
    simpa using hnodup.2.2 _ (List.mem_map_of_mem hother) _ List.mem_cons_self
  rw [known, hfind]

/-- Behind two hyphens a long name stands for its option, whose value is the next argument. -/
theorem addLong_long (hs : spec.Proper) (ho : option ∈ spec.options) :
    addLong spec a option.long.toList
      = if option.value.isSome then .ok (a, .value option)
        else (a.add option none).map (·, .nothing) := by
  have hname : ∀ c ∈ option.long.toList, (c != '=') = true := fun c hc => by
    rw [bne_iff_ne]
    rintro rfl
    exact hs.unsplit option ho hc
  rw [addLong, List.takeWhile_eq_self_iff.2 hname, List.dropWhile_eq_nil_iff.2 hname,
    String.ofList_toList, known_eq_ok hs ho, bind_ok]
  dsimp only
  split
  · rfl
  · cases a.add option none <;> rfl

theorem sortFrom_long (hs : spec.Proper) (ho : option ∈ spec.options) :
    sortFrom spec a .nothing (("--" ++ option.long) :: rest)
      = (do
        let (a, pending) ← addLong spec a option.long.toList
        sortFrom spec a pending rest) := by
  have htext : ("--" ++ option.long).toList = '-' :: '-' :: option.long.toList := by
    rw [String.toList_append]
    rfl
  refine sortFrom.eq_5 spec a _ rest option.long.toList (fun hempty => ?_) htext
  exact hs.nonempty option ho (String.toList_inj.1 hempty)

theorem sortFrom_operand (h : IsOperand arg) :
    sortFrom spec a .nothing (arg :: rest)
      = (do sortFrom spec (← a.addOperand spec arg) .nothing rest) :=
  sortFrom.eq_9 spec a arg rest h.ne (fun _ => h.ne) fun _ _ => h.ne

theorem sortFrom_value (h : IsOperand arg) :
    sortFrom spec a (.value option) (arg :: rest)
      = (do sortFrom spec (← a.add option (some arg)) .nothing rest) :=
  sortFrom.eq_8 spec a arg rest option h.ne fun _ _ => h.ne

/-- There is a kind for each operand, which the operand is of. -/
theorem exists_kind {kinds : List ValueKind} {front back : List String}
    (h : List.Forall₂ (fun kind arg => kind.accepts arg = true) kinds (front ++ arg :: back)) :
    ∃ kind, kinds[front.length]? = some kind ∧ kind.accepts arg = true := by
  obtain ⟨hlength, hget⟩ := List.forall₂_iff_get.1 h
  have hlt : front.length < (front ++ arg :: back).length := by simp
  have haccepts := hget front.length (hlength ▸ hlt) hlt
  rw [List.get_eq_getElem, List.get_eq_getElem, List.getElem_append_right (Nat.le_refl _)]
    at haccepts
  exact ⟨_, List.getElem?_eq_getElem (hlength ▸ hlt), by simpa using haccepts⟩

/-- The name of an option that is added is none of those that are given before it. -/
theorem not_mem_of_nodup {long : String}
    (h : (Keyed.keys (a.options ++ (long, value) :: b.options)).Nodup) :
    long ∉ Keyed.keys a.options := by
  rw [Keyed.keys_append, Keyed.keys_cons, List.nodup_append] at h
  exact fun hmem => h.2.2 long hmem long List.mem_cons_self rfl

/-- Sorting out what is written out adds to the arguments before it, if no option comes twice. -/
theorem sortFrom_written (hs : spec.Proper) {args : List String}
    (h : b.Written spec.options args) (hn : (Keyed.keys (a.append b).options).Nodup)
    (hk : List.Forall₂ (fun kind arg => kind.accepts arg = true) spec.operands
      (a.append b).operands) :
    sortFrom spec a .nothing args = .ok (a.append b) := by
  induction h generalizing a with
  | nil => simp [sortFrom, append]
  | @operand arg rest b harg _ ih =>
    have hmove : a.append { b with operands := arg :: b.operands }
        = append { a with operands := a.operands ++ [arg] } b := by
      simp [append]
    obtain ⟨kind, hkind, haccepts⟩ := exists_kind hk
    rw [hmove] at hn hk ⊢
    rw [sortFrom_operand harg, addOperand_eq_ok hkind haccepts, bind_ok, ih hn hk]
  | @flag option rest b ho hv hh _ ih =>
    have hmove : a.append { b with options := (option.long, none) :: b.options }
        = append { a with options := a.options ++ [(option.long, none)] } b := by
      simp [append]
    have hnew : option.long ∉ Keyed.keys a.options := not_mem_of_nodup hn
    have hadd := add_eq_ok none (fun h => by cases hh.symm.trans h) (by simp [suits, hv]) hnew
    rw [hmove] at hn hk ⊢
    rw [sortFrom_long hs ho, addLong_long hs ho, hv, Option.isSome_none,
      if_neg Bool.false_ne_true, hadd]
    exact ih hn hk
  | @value option kind value rest b ho hv hvalue hk' _ ih =>
    have hmove : a.append { b with options := (option.long, some value) :: b.options }
        = append { a with options := a.options ++ [(option.long, some value)] } b := by
      simp [append]
    have hnew : option.long ∉ Keyed.keys a.options := not_mem_of_nodup hn
    have hadd := add_eq_ok (some value) (fun _ => rfl) (by simp [suits, hv, hk']) hnew
    rw [hmove] at hn hk ⊢
    rw [sortFrom_long hs ho, addLong_long hs ho, hv, Option.isSome_some, if_pos rfl, bind_ok]
    show sortFrom spec a (.value option) (value :: rest) = _
    rw [sortFrom_value hvalue, hadd]
    exact ih hn hk

end Arguments

/-- **The installed parser is lawful.** -/
theorem ArgumentParser.installed_lawful : installed.Lawful where
  sort_written {spec args a} hs h hn hk := by
    have hsort : Arguments.sortFrom spec {} .nothing args = .ok (Arguments.append {} a) :=
      Arguments.sortFrom_written hs h hn hk
    show Arguments.sort spec args = _
    rw [Arguments.sort, hsort, bind_ok]
    exact if_pos hk.length_eq.symm

end FieldMask
