import FieldMask.Proofs.Declaration.Sound
import FieldMask.Proofs.Json.Roundtrip
import FieldMask.Proofs.Lint.Agreement
import Mathlib

/-!
# Linting and loading agree

Loading registers declarations in order until one fails, and then checks the models until one fails.
Linting leaves out a declaration that fails and goes on with those that are registered; it checks
what models refer to in its own way. The two agree (`lint_agrees`): as long as nothing has failed,
both have the same registry and linting has the path of the declaration of every model in it
(`Tracks`), so that the first error of linting is found where loading stops.

Both checks of a field are compared for plain fields, as declared ones are; of a masked copy of a
model that is nested in a field, only linting would look up the name.
-/

namespace FieldMask

namespace Lint

variable {r : Registry} {field : Field}

/-! ## Fields and models -/

/-- An error of models is found at a path or below it. -/
def Below (path : String) (e : ModelError) (l : Located) : Prop :=
  l.2 = .model e ∧ ∃ more, l.1 = path ++ more

theorem Below.of_append {path more : String} {e : ModelError} {l : Located}
    (h : Below (path ++ more) e l) : Below path e l := by
  obtain ⟨hl, below, hpath⟩ := h
  exact ⟨hl, more ++ below, hpath.trans String.append_assoc⟩

theorem agrees_ofModelError {α : Type} (path : String) (x : Except ModelError α) :
    Agrees (Below path) x (ofModelError path x) := by
  cases x with
  | ok a => exact firstError?_nil
  | error e => exact ⟨_, firstError?_cons rfl, rfl, "", String.append_empty.symm⟩

theorem checkField_scalar {kind : Kind} (h : field.shape = .scalar kind) (path : String) :
    checkField r path field = [] := by
  cases field
  cases h
  rfl

theorem checkField_list {items : Field} {least most : Option UInt64} {unique : Bool}
    (h : field.shape = .list items least most unique) (path : String) :
    checkField r path field = checkField r (path ++ "/items") items := by
  cases field
  cases h
  rfl

theorem checkField_nested {target : Target} {asList : Bool}
    (h : field.shape = .nested target asList) (path : String) :
    checkField r path field = ofModelError path (r.lookup target.name) := by
  cases field
  cases h
  rfl

theorem checkField_polymorph {mapping : NameMap String} (h : field.shape = .polymorph mapping)
    (path : String) :
    checkField r path field = match mapping.values.filter (!r.contains ·) with
      | [] => ofModelError path (r.commonAncestor mapping.values)
      | missing => missing.map fun name => (path, .model (.unknownModel name)) := by
  cases field
  cases h
  rfl

/-- The names that are not registered are those that fail to be looked up. -/
theorem flatMap_lookup (path : String) (names : List String) :
    names.flatMap (fun name => ofModelError path (r.lookup name))
      = (names.filter (!r.contains ·)).map fun name => (path, .model (.unknownModel name)) := by
  induction names with
  | nil => rfl
  | cons name names ih =>
    rw [List.flatMap_cons, List.filter_cons, ih]
    cases hc : r.contains name with
    | false =>
      rw [Registry.lookup_of_not_contains hc]
      rfl
    | true =>
      obtain ⟨model, hm⟩ := Registry.contains_iff.1 hc
      rw [Registry.lookup_eq_ok.2 hm]
      rfl

/-- What linting a plain field finds is what its check fails with, on the way to items too. -/
theorem agrees_checkField (hf : field.Plain) (path : String) :
    Agrees (Below path) (r.checkField field) (checkField r path field) := by
  induction hf generalizing path with
  | scalar h =>
    rw [Registry.checkField_scalar h, checkField_scalar h]
    exact firstError?_nil
  | list h hi ih =>
    rw [Registry.checkField_list h, checkField_list h]
    exact (ih _).imp fun e l _ hl => hl.of_append
  | named h =>
    rw [Registry.checkField_named h, checkField_nested h]
    exact (agrees_ofModelError path _).discard
  | @polymorph field mapping h =>
    rw [Registry.checkField_polymorph h, checkField_polymorph h]
    have hnames := agrees_forM fun name (_ : name ∈ mapping.values) =>
      (agrees_ofModelError path (r.lookup name)).discard
    have hnames : Agrees (Below path) (mapping.values.forM fun name => discard (r.lookup name))
        _ := hnames.imp fun e l _ ⟨_, _, _, hl⟩ => hl
    rw [flatMap_lookup] at hnames
    cases hmissing : mapping.values.filter (!r.contains ·) with
    | nil =>
      rw [hmissing] at hnames
      exact hnames.bind fun _ _ => (agrees_ofModelError path _).discard
    | cons name missing =>
      rw [hmissing] at hnames
      -- the first missing name is an error, so that the common ancestor is not looked for
      have hbind : Agrees (Below path) ((mapping.values.forM fun name => discard (r.lookup name))
          >>= fun _ => discard (r.commonAncestor mapping.values)) (_ ++ []) :=
        hnames.bind fun _ hok => by cases (firstError?_cons rfl).symm.trans (hnames.of_ok hok)
      rwa [List.append_nil] at hbind

/-- The path that is given for a model of that name. -/
def Registered.pathOf (st : Registered) (name : String) : String := (st.paths.lookup name).getD "/"

variable {st : Registered}

theorem agrees_checkModel {model : Model} (hm : ∀ e ∈ model.fields, e.2.Plain) :
    Agrees (Below (st.pathOf model.name)) (st.registry.checkModel model) (checkModel st model) := by
  refine (agrees_ofModelError _ _).discard.bind fun _ _ => ?_
  refine (agrees_forM fun e he => agrees_checkField (hm e he) _).imp ?_
  exact fun e l _ ⟨field, _, _, hl⟩ => hl.of_append.of_append

theorem agrees_check (hr : st.registry.Plain) :
    Agrees (fun e l => ∃ model ∈ st.registry.toList,
        st.registry.checkModel model = .error e ∧ Below (st.pathOf model.name) e l)
      st.registry.check (st.registry.toList.flatMap (checkModel st)) := by
  refine agrees_forM fun model hmem => agrees_checkModel ?_
  obtain ⟨name, hm⟩ := Registry.exists_find?_of_mem_toList hmem
  exact hr name model hm

end Lint

/-! ## Declarations -/

namespace Registry

/-- Register the model that is declared at a path. -/
def declare (r : Registry) (e : String × Json) : Except RegistryError Registry := do
  let d ← (Declaration.read e.1 e.2).mapError .declaration
  (d.register r).mapError .model

/-- Register the models that are declared at paths, one after the other. -/
def declareAll (values : List (String × Json)) : Except RegistryError Registry :=
  values.foldlM declare .empty

theorem ofDocument_eq (document : Json) :
    ofDocument document = (do
      let values ← (Declaration.valuesOf document).mapError .declaration
      let r ← declareAll values
      r.check.mapError .model
      return r) :=
  rfl

theorem declareAll_append (values more : List (String × Json)) :
    declareAll (values ++ more) = declareAll values >>= fun r => more.foldlM declare r :=
  List.foldlM_append

theorem declare_eq_ok {r r' : Registry} {e : String × Json} :
    r.declare e = .ok r' ↔ ∃ d, Declaration.read e.1 e.2 = .ok d ∧ d.register r = .ok r' := by
  simp [declare]

end Registry

namespace Lint

/-- The code of an error of models. -/
def modelCode : ModelError → String
  | .unknownModel _ => "E002"
  | .duplicateDiscriminator _ _ | .ambiguousAncestor _ => "E004"
  | .duplicateModel _ | .inheritanceCycle _ => "E001"

/--
The place of an error of models: that of the declaration whose model cannot be registered after
those before it, or a place at or below that of the declaration whose model fails its check.
-/
inductive Blames (values : List (String × Json)) (e : ModelError) (place : String) : Prop
  | register {before after : List (String × Json)} {value : Json} {d : Declaration} {r : Registry}
      (hv : values = before ++ (place, value) :: after) (hr : Registry.declareAll before = .ok r)
      (hd : Declaration.read place value = .ok d) (he : d.register r = .error e)
  | check {path more : String} {value : Json} {d : Declaration} {r : Registry} {model : Model}
      (hv : (path, value) ∈ values) (hr : Registry.declareAll values = .ok r)
      (hd : Declaration.read path value = .ok d) (hm : r.find? d.name = some model)
      (he : r.checkModel model = .error e) (hp : place = path ++ more)

/-- The finding has the code and the place of an error that a document fails to load with. -/
def Tells (document : Json) (l : Located) : LoadError → Prop
  | .declaration (.invalid path _) => l.2.code = "E001" ∧ l.1 = path
  | .declaration (.invalidMask path _) => l.2.code = "E003" ∧ l.1 = path
  | .model e => l.2.code = modelCode e ∧ l.2.message = e.message ∧
      ∃ values, Declaration.valuesOf document = .ok values ∧ Blames values e l.1
  | _ => False

variable {document : Json} {values before rest : List (String × Json)} {st : Registered}

theorem tells_ofDeclarationError (e : DeclarationError) :
    Tells document (ofDeclarationError e) (.declaration e) := by
  cases e <;> exact ⟨rfl, rfl⟩

theorem tells_model {l : Located} {e : ModelError} (hv : Declaration.valuesOf document = .ok values)
    (hl : l.2 = .model e) (hb : Blames values e l.1) : Tells document l (.model e) := by
  refine ⟨?_, ?_, values, hv, hb⟩
  · rw [hl]
    cases e <;> rfl
  · rw [hl]
    rfl

theorem firstError?_warnings (path : String) (d : Declaration) :
    firstError? (warnings path d) = none := by
  unfold warnings
  split <;> split <;> rfl

/--
The declarations so far have been registered, and every model has the path of a declaration of its
name.
-/
structure Tracks (st : Registered) (values : List (String × Json)) : Prop where
  declared : Registry.declareAll values = .ok st.registry
  plain : st.registry.Plain
  placed : ∀ {name model}, st.registry.find? name = some model → ∃ path value d,
    st.paths.lookup name = some path ∧ (path, value) ∈ values ∧
      Declaration.read path value = .ok d ∧ d.name = name

theorem tracks_empty : Tracks ⟨.empty, []⟩ [] where
  declared := rfl
  plain := Registry.plain_empty
  placed h := by cases h

/--
What is found in declarations agrees with what becomes of them when they are registered, and if they
all are, all so far are kept track of.
-/
structure Follows (document : Json) (values : List (String × Json))
    (x : Except RegistryError Registry) (result : Registered × List Located) : Prop where
  agrees : Agrees (fun e l => Tells document l (.ofRegistryError e)) x result.2
  tracks : ∀ {r}, x = .ok r → Tracks result.1 values ∧ result.1.registry = r

/-- A declaration that is registered is kept track of. -/
theorem Tracks.put (h : Tracks st before) {path : String} {value : Json} {d : Declaration}
    {r : Registry} (hd : Declaration.read path value = .ok d)
    (hr : d.register st.registry = .ok r) :
    Tracks ⟨r, (d.name, path) :: st.paths⟩ (before ++ [(path, value)]) := by
  refine ⟨?_, Registry.plain_register h.plain (Declaration.plain_of_read hd) hr, ?_⟩
  · rw [Registry.declareAll_append, h.declared]
    exact List.foldlM_cons.trans (bind_eq_ok.2 ⟨r, Registry.declare_eq_ok.2 ⟨d, hd, hr⟩, rfl⟩)
  · intro name m hm
    obtain ⟨-, -, model, hname, -, rfl⟩ := Declaration.exists_put_of_register hr
    rw [Registry.find?_put, hname] at hm
    dsimp only
    rw [Keyed.lookup_cons]
    split at hm
    · rename_i hnew
      rw [if_pos hnew]
      exact ⟨path, value, d, rfl, List.mem_append_right _ List.mem_cons_self, hd, hnew.symm⟩
    · rename_i hold
      rw [if_neg hold]
      obtain ⟨path', value', d', hpath, hmem, hread⟩ := h.placed hm
      exact ⟨path', value', d', hpath, List.mem_append_left _ hmem, hread⟩

theorem Tracks.follows_checkDeclaration (h : Tracks st before) {path : String} {value : Json}
    (hv : Declaration.valuesOf document = .ok (before ++ (path, value) :: rest)) :
    Follows document (before ++ [(path, value)]) (st.registry.declare (path, value))
      (checkDeclaration st path value) := by
  unfold Registry.declare checkDeclaration
  cases hd : Declaration.read path value with
  | error e =>
    refine ⟨⟨_, firstError?_cons ?_, tells_ofDeclarationError e⟩, nofun⟩
    cases e <;> rfl
  | ok d =>
    show Follows _ _ ((d.register st.registry).mapError RegistryError.model) _
    dsimp only
    cases hr : d.register st.registry with
    | ok r =>
      refine ⟨firstError?_warnings path d, fun h' => ?_⟩
      obtain rfl := Except.ok.inj h'
      exact ⟨h.put hd hr, rfl⟩
    | error e =>
      refine ⟨⟨(path, .model e), ?_, tells_model hv rfl (.register rfl h.declared hd hr)⟩, nofun⟩
      rw [firstError?_append_of_none (firstError?_warnings path d)]
      exact firstError?_cons rfl

theorem Tracks.follows_checkDeclarations (h : Tracks st before)
    (hv : Declaration.valuesOf document = .ok (before ++ rest)) :
    Follows document (before ++ rest) (rest.foldlM Registry.declare st.registry)
      (checkDeclarations st rest) := by
  induction rest generalizing st before with
  | nil =>
    refine ⟨firstError?_nil, fun hr => ⟨?_, pure_eq_ok.1 hr⟩⟩
    rwa [List.append_nil]
  | cons e rest ih =>
    obtain ⟨path, value⟩ := e
    have hfirst := h.follows_checkDeclaration hv
    rw [List.append_cons] at hv ⊢
    rw [List.foldlM_cons]
    constructor
    · refine hfirst.agrees.bind fun r hr => ?_
      -- loading goes on only where both have registered the model, so with the same registry
      obtain ⟨ht, rfl⟩ := hfirst.tracks hr
      exact (ih ht hv).agrees
    · intro r' hr'
      obtain ⟨r, hr, hr'⟩ := bind_eq_ok.1 hr'
      obtain ⟨ht, rfl⟩ := hfirst.tracks hr
      exact (ih ht hv).tracks hr'

/-! ## Documents and files -/

theorem valuesOf_eq_error {e : DeclarationError} (h : Declaration.valuesOf document = .error e) :
    e = .invalid "/models" .noModels := by
  unfold Declaration.valuesOf at h
  split at h
  · cases h
  · exact (Except.error.inj h).symm

/-- Linting a document agrees with registering what it declares. -/
theorem agrees_ofDocument (document : Json) :
    Agrees (fun e l => Tells document l (.ofRegistryError e)) (Registry.ofDocument document)
      (checkDocument document) := by
  rw [Registry.ofDocument_eq, checkDocument]
  cases hv : Declaration.valuesOf document with
  | error e =>
    obtain rfl := valuesOf_eq_error hv
    exact ⟨_, firstError?_cons rfl, rfl, rfl⟩
  | ok values =>
    have hall := tracks_empty.follows_checkDeclarations hv
    refine hall.agrees.bind fun r hr => ?_
    obtain ⟨ht, rfl⟩ := hall.tracks hr
    refine ((agrees_check ht.plain).mapError fun e l _ hl => ?_).bind_pure (f := fun _ => _)
    obtain ⟨model, hmem, he, hl, more, hpath⟩ := hl
    obtain ⟨name, hm⟩ := Registry.exists_find?_of_mem_toList hmem
    obtain ⟨path, value, d, hlookup, hval, hd, hname⟩ := ht.placed hm
    rw [Registered.pathOf, Registry.name_of_find? hm, hlookup] at hpath
    exact tells_model hv hl (.check hval hr hd (hname ▸ hm) he hpath)

-- the models that are registered are checked after a declaration that is not
example :
    let keeper := Registry.declared "nested" [("model", .str "Keeper")]
    checkDocument (.obj [("models", .arr [
        .obj [("name", .str "Cat"), ("fields", .obj [("keeper", keeper)])],
        .obj [("name", .str "Twin"), ("inherits", .strings ["Cat"]),
          ("clone", .strings ["Cat"])]])])
      = [("/models/0", .noDescription "Cat"), ("/models/1", .invalidDeclaration .inheritsAndClones),
        ("/models/0/fields/keeper", .model (.unknownModel "Keeper"))] := by
  cbv

end Lint

/-- The registry of the models that the file at a path declares. -/
def Registry.loadFile (files : FileView) (path : String) : Except LoadError Registry := do
  load (← Document.ofFile files path)

namespace Lint

variable (files : FileView) (base path : String)

theorem agrees_loadFile :
    Agrees (fun e l => ∀ document, Document.ofFile files path = .ok document → Tells document l e)
      (Registry.loadFile files path) (checkFile files path) := by
  unfold Registry.loadFile checkFile
  cases hfile : Document.ofFile files path with
  | error e => exact ⟨_, firstError?_cons rfl, fun _ h => by cases h⟩
  | ok document =>
    refine (agrees_ofDocument document).mapError fun e l _ hl document' h => ?_
    obtain rfl := Except.ok.inj h
    exact hl

/-- There are no errors in the report on a file just if the file loads. -/
theorem count_error_eq_zero_iff :
    (lintFile files base path).count .error = 0 ↔ ∃ r, Registry.loadFile files path = .ok r := by
  rw [(agrees_loadFile files path).exists_ok_iff, firstError?, List.find?_eq_none, FileReport.count,
    lintFile, List.countP_map, List.countP_eq_zero]
  rfl

end Lint

/-! ## Reports -/

/-- The first diagnostic that is an error. -/
def FileReport.firstError? (report : FileReport) : Option Diagnostic :=
  report.diagnostics.find? (·.finding.severity == .error)

/-- Without strictness, errors alone make a file fail. -/
theorem FileReport.fails_iff {report : FileReport} :
    report.fails false = true ↔ report.count .error ≠ 0 := by
  unfold fails status
  by_cases h : 0 < report.count .error
  · simp [h, Nat.ne_of_gt h]
  · have hzero : report.count .error = 0 := Nat.eq_zero_of_not_pos h
    rw [if_neg h]
    cases report.diagnostics.isEmpty <;> simp [hzero]

theorem LintReport.isOk_iff {report : LintReport} :
    report.isOk = true ↔ ∀ file ∈ report.results, file.count .error = 0 := by
  unfold isOk count
  induction report.results with
  | nil => simp
  | cons file results ih => simp_all

namespace Lint

variable (files : FileView) (base path : String)

theorem firstError?_lintFile : (lintFile files base path).firstError?
    = (firstError? (checkFile files path)).map fun l => ⟨path, l.1, l.2⟩ := by
  rw [FileReport.firstError?, lintFile, List.find?_map]
  rfl

/--
**Linting and loading agree**: no error is found in a file just if the file loads, and where its
document fails to load, the first error that is found has the code and the place of that failure. So
the files at a path that fail are those that do not load, and all is well just if all of them load.
-/
theorem lint_agrees :
    ((∀ d ∈ (lintFile files base path).diagnostics, d.finding.severity ≠ .error) ↔
        ∃ r, Registry.loadFile files path = .ok r) ∧
      (∀ document e, Document.ofFile files path = .ok document →
        Registry.load document = .error e →
          ∃ d, (lintFile files base path).firstError? = some d ∧
            Tells document (d.path, d.finding) e) ∧
      (lint files path false).failed
        = (declarationFiles files path).countP
            (fun file => !(Registry.loadFile files file).isOk) ∧
      ((lint files path false).isOk = true ↔
        ∀ file ∈ declarationFiles files path, ∃ r, Registry.loadFile files file = .ok r) := by
  refine ⟨?_, fun document e hfile he => ?_, ?_, ?_⟩
  · rw [← count_error_eq_zero_iff files base path, FileReport.count, List.countP_eq_zero]
    simp
  · have hload : Registry.loadFile files path = .error e := by
      rw [Registry.loadFile, hfile]
      exact he
    obtain ⟨l, hl, htells⟩ := (agrees_loadFile files path).of_error hload
    exact ⟨⟨path, l.1, l.2⟩, by rw [firstError?_lintFile, hl]; rfl, htells document hfile⟩
  · rw [LintReport.failed, lint, List.countP_map]
    refine List.countP_congr fun file _ => ?_
    show (lintFile files path file).fails false = true ↔ _
    rw [FileReport.fails_iff, ne_eq, count_error_eq_zero_iff]
    cases Registry.loadFile files file <;> simp [Except.isOk, Except.toBool]
  · rw [LintReport.isOk_iff, lint, List.forall_mem_map]
    exact forall₂_congr fun file _ => count_error_eq_zero_iff files path file

/-- Two models, of which the second has a field for a model that there is not. -/
def dangling : Json := .obj [("models", .arr [
  .obj [("name", .str "Toy"), ("fields", .obj [("label", Registry.declared "string" [])])],
  .obj [("name", .str "Cat"), ("fields", .obj [
    ("toy", Registry.declared "nested" [("model", .str "Toy")]),
    ("keeper", Registry.declared "nested" [("model", .str "Keeper")])])]])]

/-- A directory with a file that declares these models, and one that declares none. -/
def danglingFiles : FileView where
  find path :=
    if path = "cats.json" then .file dangling.compact.toUTF8
    else if path = "none.json" then .file (Json.obj [("models", .arr [])]).compact.toUTF8
    else .directory
  below _ := ["none.json", "notes.txt", "cats.json"]

/-- The missing model is found where it is asked for, and its file is the only one that fails. -/
theorem lint_agrees_dangling :
    let e : LoadError := .model (.unknownModel "Keeper")
    Document.ofFile danglingFiles "cats.json" = .ok dangling ∧ Registry.load dangling = .error e ∧
      (∃ d, (lintFile danglingFiles "." "cats.json").firstError? = some d ∧
        Tells dangling (d.path, d.finding) e ∧ d.path = "/models/1/fields/keeper") ∧
      declarationFiles danglingFiles "." = ["cats.json", "none.json"] ∧
      (lint danglingFiles "." false).failed = 1 ∧ (lint danglingFiles "." false).isOk = false := by
  intro e
  have hfile : Document.ofFile danglingFiles "cats.json" = .ok dangling := by
    refine Json.ofFile_compact rfl ?_
    simp [dangling, Registry.declared, Json.nestingLimit]
  have hnone : Document.ofFile danglingFiles "none.json" = .ok (.obj [("models", .arr [])]) := by
    refine Json.ofFile_compact rfl ?_
    simp [Json.nestingLimit]
  have he : Registry.load dangling = .error e := by cbv
  have hbad : Registry.loadFile danglingFiles "cats.json" = .error e := by
    rw [Registry.loadFile, hfile]
    exact he
  have hgood : Registry.loadFile danglingFiles "none.json" = .ok .empty := by
    rw [Registry.loadFile, hnone]
    cbv
  have hpaths : declarationFiles danglingFiles "." = ["cats.json", "none.json"] := by
    have hnames :
        (danglingFiles.below ".").filter Path.isJsonFile = ["none.json", "cats.json"] := by
      cbv
    have horder : Path.le "none.json" "cats.json" = false := by cbv
    show ((danglingFiles.below ".").filter Path.isJsonFile).mergeSort Path.le = _
    rw [hnames]
    simp [List.mergeSort, List.MergeSort.Internal.splitInTwo, horder]
  have hfirst : (firstError? (checkFile danglingFiles "cats.json")).map Prod.fst
      = some "/models/1/fields/keeper" := by
    rw [checkFile, hfile]
    cbv
  obtain ⟨d, hd, htold⟩ := (lint_agrees danglingFiles "." "cats.json").2.1 dangling e hfile he
  refine ⟨hfile, he, ⟨d, hd, htold, ?_⟩, hpaths, ?_, ?_⟩
  · rw [firstError?_lintFile] at hd
    obtain ⟨l, hl, rfl⟩ := Option.map_eq_some_iff.1 hd
    rw [hl] at hfirst
    exact Option.some.inj hfirst
  · rw [(lint_agrees danglingFiles "." ".").2.2.1, hpaths]
    simp [hbad, hgood, Except.isOk, Except.toBool]
  · rw [Bool.eq_false_iff]
    intro h
    obtain ⟨r, hr⟩ := (lint_agrees danglingFiles "." ".").2.2.2.1 h "cats.json"
      (hpaths ▸ List.mem_cons_self)
    cases hbad.symm.trans hr

end Lint

end FieldMask
