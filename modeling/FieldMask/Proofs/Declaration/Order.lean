import FieldMask.Proofs.Declaration.Sound
import FieldMask.Proofs.Model.Extension
import FieldMask.Schema.Definition
import Mathlib

/-!
# The order of declarations

The models of a document may be declared in another order, as long as parents and sources still come
before what uses them: the document declares the same registry (`load_of_perm`). A registry holds a
declaration if it has the model that the declaration makes in it, and a registry that is made of
some declarations is part of every registry that holds them all (`extends_of_holds`), since a source
flattens alike as soon as it is registered. What is read off a declaration does not depend on where
it stands (`keeps_read`).
-/

namespace FieldMask

namespace Declaration

/-! ## Reading -/

variable {path path' : String}

theorem keeps_readMask (text : String) : Keeps (readMask path text) (readMask path' text) :=
  (Keeps.refl _).mapError _ _

theorem keeps_readMask? (text : Option String) :
    Keeps (readMask? path text) (readMask? path' text) := by
  cases text with
  | none => exact Keeps.refl _
  | some text => exact (keeps_readMask text).bind fun _ _ => Keeps.refl _

theorem keeps_shapeOf (d : FieldDeclaration) : Keeps (shapeOf path d) (shapeOf path' d) := by
  unfold shapeOf
  split
  · split
    · exact Keeps.refl _
    · nofun
  · split
    · split
      · nofun
      · exact Keeps.refl _
    · split
      · exact Keeps.refl _
      · nofun

theorem keeps_readField {path path' : String} (value : Json) :
    Keeps (readField path value) (readField path' value) := by
  rw [readField, readField]
  refine ((Keeps.refl _).mapError _ _).bind fun d _ => ?_
  have hmask {x y : Except DeclarationError Shape} (h : Keeps x y) :
      Keeps (x >>= fun shape => return d.toField shape (← readMask? (path ++ "/mask") d.mask))
        (y >>= fun shape => return d.toField shape (← readMask? (path' ++ "/mask") d.mask)) :=
    h.bind fun _ _ => (keeps_readMask? d.mask).bind fun _ _ => Keeps.refl _
  dsimp only
  split
  · split
    · exact (keeps_readField _).bind fun items _ => hmask (Keeps.refl (pure _))
    · nofun
  · exact hmask (keeps_shapeOf d)
termination_by sizeOf value
decreasing_by exact FieldDeclaration.sizeOf_itemsOf?_lt ‹_›

/-- A declaration reads alike wherever it stands. -/
theorem keeps_read (value : Json) : Keeps (read path value) (read path' value) := by
  refine ((Keeps.refl _).mapError _ _).bind fun d _ => ?_
  dsimp only
  split
  · nofun
  · refine (keeps_readMask? d.mask).bind fun _ _ => ?_
    refine (keeps_mapM fun e _ => ?_).bind fun _ _ => Keeps.refl _
    exact (keeps_readField e.2).bind fun _ _ => Keeps.refl _

end Declaration

/-! ## Registering -/

namespace Registry

variable {r r' : Registry} {d : Declaration} {ds ds' : List Declaration}

/-- A declaration makes the same model in a larger registry, if it makes one. -/
theorem Extends.toModel (h : r.Extends r') (d : Declaration) :
    Keeps (d.toModel r) (d.toModel r') :=
  (keeps_mapM fun name _ => h.resolveName name).bind fun _ _ => Keeps.refl _

/-- The registry has the model that the declaration makes in it. -/
def Holds (r : Registry) (d : Declaration) : Prop :=
  ∃ model, d.toModel r = .ok model ∧ r.find? d.name = some model

theorem Holds.extends (hd : r.Holds d) (h : r.Extends r') : r'.Holds d := by
  obtain ⟨model, hmodel, hm⟩ := hd
  exact ⟨model, h.toModel d model hmodel, h d.name model hm⟩

/-- Registering a declaration adds its model alone. -/
theorem extends_register (h : d.register r = .ok r') : r.Extends r' ∧ r'.Holds d := by
  obtain ⟨model, hmodel, hdefine⟩ := Declaration.register_eq_ok.1 h
  obtain ⟨hfree, -, rfl⟩ := define_eq_ok.1 hdefine
  have hext : r.Extends (r.put model) := extends_put hfree
  refine ⟨hext, model, hext.toModel d model hmodel, ?_⟩
  rw [find?_put, if_pos (Declaration.name_of_toModel hmodel).symm]

/-- The registry that declarations are registered in holds all of them. -/
theorem holds_registerAll (h : r.registerAll ds = .ok r') :
    r.Extends r' ∧ ∀ d ∈ ds, r'.Holds d := by
  induction ds generalizing r with
  | nil =>
    obtain rfl := pure_eq_ok.1 h
    exact ⟨.refl r, List.forall_mem_nil _⟩
  | cons d ds ih =>
    obtain ⟨r₁, hd, h⟩ := bind_eq_ok.1 (List.foldlM_cons.symm.trans h)
    obtain ⟨hext, hholds⟩ := extends_register hd
    obtain ⟨hext', hall⟩ := ih h
    exact ⟨hext.trans hext', List.forall_mem_cons.2 ⟨hholds.extends hext', hall⟩⟩

/-- What declarations make of a registry is part of every larger one that holds them. -/
theorem extends_of_holds {whole : Registry} (h : r.registerAll ds = .ok r')
    (hw : r.Extends whole) (hd : ∀ d ∈ ds, whole.Holds d) : r'.Extends whole := by
  refine foldlM_induct (P := fun r => r.Extends whole) (fun r d hmem r' hw h => ?_) hw h
  obtain ⟨model, hmodel, hdefine⟩ := Declaration.register_eq_ok.1 h
  obtain ⟨-, -, rfl⟩ := define_eq_ok.1 hdefine
  obtain ⟨model', hmodel', hm⟩ := hd d hmem
  obtain rfl := Except.ok.inj ((hw.toModel d model hmodel).symm.trans hmodel')
  intro name m hfind
  rw [find?_put] at hfind
  split at hfind
  · rename_i hname
    rw [hname, Declaration.name_of_toModel hmodel, hm, hfind]
  · exact hw name m hfind

/-- Registries that extend each other are the same. -/
theorem Extends.antisymm (h : r.Extends r') (h' : r'.Extends r) : r = r' := by
  have hfind (name : String) : r.find? name = r'.find? name :=
    Option.ext fun model => ⟨h name model, h' name model⟩
  have hnames : r.names = r'.names := by
    refine eq_of_ascending r.ascending_names r'.ascending_names fun n => ?_
    rw [mem_names_iff, mem_names_iff, hfind n]
  have hentries : r.models.entries = r'.models.entries :=
    Keyed.eq_of_lookup hnames (r.ascending_names.imp Std.ne_of_lt) hfind
  obtain ⟨⟨entries, _⟩, _⟩ := r
  obtain ⟨⟨entries', _⟩, _⟩ := r'
  obtain rfl : entries = entries' := hentries
  rfl

/-- The same declarations, in any order, make the same registry. -/
theorem eq_of_registerAll (h : Registry.empty.registerAll ds = .ok r)
    (h' : Registry.empty.registerAll ds' = .ok r') (hmem : ∀ d, d ∈ ds ↔ d ∈ ds') : r = r' := by
  have hempty (whole : Registry) : Registry.empty.Extends whole := fun name model hm => by cases hm
  refine Extends.antisymm ?_ ?_
  · exact extends_of_holds h (hempty r') fun d hd => (holds_registerAll h').2 d ((hmem d).1 hd)
  · exact extends_of_holds h' (hempty r) fun d hd => (holds_registerAll h).2 d ((hmem d).2 hd)

end Registry

/-! ## Loading -/

namespace Declaration

variable {document : Json} {values : List Json} {ds : List Declaration} {d : Declaration}

theorem valuesOf_eq_ok {paired : List (String × Json)} :
    valuesOf document = .ok paired ↔ ∃ values, document.get? "models" = some (.arr values) ∧
      (values.zipIdx.map fun e => (pathAt e.2, e.1)) = paired := by
  unfold valuesOf
  cases document.get? "models" with
  | none => simp
  | some v => cases v <;> simp [Json.items?]

/-- The declarations of a document are those that its array of models reads as. -/
theorem mem_of_valuesOf {paired : List (String × Json)}
    (hget : document.get? "models" = some (.arr values)) (hv : valuesOf document = .ok paired)
    (hds : paired.mapM (fun e => read e.1 e.2) = .ok ds) :
    d ∈ ds ↔ ∃ value ∈ values, ∃ path, read path value = .ok d := by
  obtain ⟨values', hget', rfl⟩ := valuesOf_eq_ok.1 hv
  obtain ⟨rfl⟩ : values = values' := by
    simpa [hget] using hget'
  constructor
  · intro hd
    obtain ⟨e, he, hread⟩ := exists_of_mem_mapM hds hd
    obtain ⟨⟨value, i⟩, hmem, rfl⟩ := List.mem_map.1 he
    exact ⟨value, List.fst_mem_of_mem_zipIdx hmem, _, hread⟩
  · rintro ⟨value, hvalue, path, hread⟩
    obtain ⟨i, hi, rfl⟩ := List.getElem_of_mem hvalue
    have hmem : (pathAt i, values[i]) ∈ values.zipIdx.map fun e => (pathAt e.2, e.1) := by
      refine List.mem_map.2 ⟨(values[i], i), ?_, rfl⟩
      exact List.mk_mem_zipIdx_iff_getElem?.2 (List.getElem?_eq_getElem hi)
    obtain ⟨d', hd', hread'⟩ := exists_right_of_mem (mapM_eq_ok.1 hds) hmem
    obtain rfl := Except.ok.inj ((keeps_read _ d hread).symm.trans hread')
    exact hd'

end Declaration

namespace Registry

variable {r r' : Registry}

/--
**The order of declarations does not matter once it is legal**: two documents whose models are the
same up to their order declare the same registry if both can be loaded, and so the same definitions.
-/
theorem load_of_perm {document document' : Json} {values values' : List Json}
    (hget : document.get? "models" = some (.arr values))
    (hget' : document'.get? "models" = some (.arr values')) (hperm : values.Perm values')
    (h : Registry.load document = .ok r) (h' : Registry.load document' = .ok r') :
    r = r' ∧ r.definitionsDocument = r'.definitionsDocument := by
  obtain ⟨paired, ds, hv, hds, hl, -⟩ := load_eq_ok.1 h
  obtain ⟨paired', ds', hv', hds', hl', -⟩ := load_eq_ok.1 h'
  have hmem (d : Declaration) : d ∈ ds ↔ d ∈ ds' := by
    rw [Declaration.mem_of_valuesOf hget hv hds, Declaration.mem_of_valuesOf hget' hv' hds']
    exact exists_congr fun value => and_congr_left' hperm.mem_iff
  obtain rfl := eq_of_registerAll hl hl' hmem
  exact ⟨rfl, rfl⟩

/-- A clone of a clone's child is the same, whatever is declared among the models behind it. -/
theorem load_of_perm_relatives :
    let animal := .obj [("name", .str "Animal"), ("fields", .obj [
      ("kind", declared "string" [("discriminator", .bool true)])])]
    let copy := .obj [("name", .str "Copy"), ("clone", .strings ["Animal"])]
    let cat := .obj [("name", .str "Cat"), ("inherits", .strings ["Copy"]), ("fields", .obj [
      ("keeper", declared "nested" [("model", .str "Keeper")])])]
    let twin := .obj [("name", .str "Twin"), ("clone", .strings ["Cat", "Copy"])]
    let keeper := .obj [("name", .str "Keeper"), ("fields", .obj [
      ("pets", declared "list" [("items", declared "polymorph" [
        ("mapping", .obj [("cat", .str "Cat"), ("copy", .str "Copy")])])])])]
    ∃ r, Registry.load (.obj [("models", .arr [animal, copy, cat, twin, keeper])]) = .ok r ∧
      Registry.load (.obj [("models", .arr [keeper, animal, copy, cat, twin])]) = .ok r ∧
      r.names = ["Animal", "Cat", "Copy", "Keeper", "Twin"] := by
  intro animal copy cat twin keeper
  have h : ((Registry.load (.obj [("models", .arr [animal, copy, cat, twin, keeper])])).toOption.any
      fun r => r.names = ["Animal", "Cat", "Copy", "Keeper", "Twin"]) = true := by
    cbv
  have h' : (Registry.load
      (.obj [("models", .arr [keeper, animal, copy, cat, twin])])).toOption.isSome = true := by
    cbv
  obtain ⟨r, hl, hnames⟩ := exists_of_any_toOption h
  obtain ⟨r', hl'⟩ := exists_of_isSome_toOption h'
  have hperm : [animal, copy, cat, twin, keeper].Perm [keeper, animal, copy, cat, twin] :=
    @List.perm_append_comm _ [animal, copy, cat, twin] [keeper]
  obtain ⟨rfl, -⟩ := load_of_perm rfl rfl hperm hl hl'
  exact ⟨r, hl, hl', of_decide_eq_true hnames⟩

end Registry

end FieldMask
