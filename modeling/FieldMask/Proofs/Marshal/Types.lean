import FieldMask.Proofs.Marshal.Tasks
import FieldMask.Proofs.Schema.Compiled

/-!
# Types of what comes out

Whatever comes out for a field of a kind that is not opaque is null or of the type that the schema
of the field asks for: it comes from coercion, of a value that was found or of the default of the
field. And whatever comes out for a discriminator is the name of the model that the object was
marshalled against, since the value is not looked at.

`Typed` says so of all tasks behind the paths of an outcome, and that no other value is in it but
parts of those that are taken whole. Every outcome is typed (`marshal_typed`), because what a path
leads to is the outcome of the task behind it.
-/

namespace FieldMask

/-- The value is of the type that the schema of the field asks for. -/
def Field.Types (r : Registry) (field : Field) (value : Json) : Prop :=
  ∃ schema type, field.schema r = .ok (.obj schema) ∧
    schema.lookup "type" = some (.str type.name) ∧ value.hasType type = true

namespace Marshal

variable {r : Registry} {skipNone : Bool} {place : Pointer} {field : Field} {kind : Kind}
  {value out w : Json}

/-- A value in the form of the kind of a field is of the type that its schema asks for. -/
theorem types_of_form (hs : field.shape = .scalar kind) (h : kind.Form value) :
    field.Types r value :=
  ⟨_, kind.schemaType, Field.schema_scalar hs, rfl, h.hasType⟩

/-- What comes out for a field of a kind is null or in the form of the kind. -/
theorem form_of_fieldValue (hs : field.shape = .scalar kind) (hk : kind.isOpaque = false)
    (h : fieldValue r skipNone field place value = .ok out) (hout : out ≠ .null) :
    kind.Form out := by
  by_cases hv : value = .null
  · rw [hv, fieldValue_null, absent_of_scalar hs] at h
    cases hd : field.default with
    | none =>
      rw [hd] at h
      exact absurd (Except.ok.inj h).symm hout
    | some d =>
      rw [hd] at h
      exact Kind.form_of_coerce hk (coerce_eq_ok.1 h)
  · rw [fieldValue_of_not_isOpaque hv hs hk] at h
    exact Kind.form_of_coerce hk (coerce_eq_ok.1 h)

/--
The outcome of the task is typed: at the paths of fields of a kind it holds nulls or values in the
form of the kind, at those of discriminators the names of the models, and at other paths without a
task parts of values that are taken whole.
-/
structure Typed (r : Registry) (t : Task) (out : Json) : Prop where
  scalar : ∀ {path field value kind w}, t.follow? r path = some (.field field value) →
    field.shape = .scalar kind → kind.isOpaque = false → out.follow? path = some w → w ≠ .null →
      kind.Form w ∧ field.Types r w
  discriminator : ∀ {path u m mask value key w}, t.follow? r path = some u →
    u.handOn r = .model m mask value → Task.Stamps r m mask key →
      out.follow? (path ++ [.key key]) = some w → w = .str m.name
  rest : ∀ {path w}, out.follow? path = some w →
    (∃ u, t.follow? r path = some u) ∨
      (∃ front u m mask value key, path = front ++ [.key key] ∧ t.follow? r front = some u ∧
        u.handOn r = .model m mask value ∧ Task.Stamps r m mask key) ∨
      ∃ front rest u, path = front ++ rest ∧ t.follow? r front = some u ∧ u.Whole

/-- What comes out of a model under the key of a discriminator is the name of the model. -/
theorem eq_name_of_stamps {m : Model} {mask : Option Mask} {key : String}
    (hkey : Task.Stamps r m mask key) (h : model r skipNone m mask place value = .ok out)
    (hw : out.next? (.key key) = some w) : w = .str m.name := by
  rcases Task.cases_of_next?_model h hw with ⟨u, -, hu, -⟩ | ⟨_, -, -, hw⟩
  · cases hu.symm.trans (Task.next?_eq_none_of_stamps hkey)
  · exact hw

/-- The outcome of every task is typed. -/
theorem typed_of_run {t : Task} (h : t.run r skipNone place = .ok out) : Typed r t out where
  scalar ht hs hk hw hnull := by
    obtain ⟨p, hrun⟩ := Task.exists_run_of_follow? h ht hw
    have hform := form_of_fieldValue hs hk hrun hnull
    exact ⟨hform, types_of_form hs hform⟩
  discriminator hu hmodel hkey hw := by
    rw [Json.follow?_append] at hw
    obtain ⟨w', hw', hw⟩ := Option.bind_eq_some_iff.1 hw
    obtain ⟨x, hx, hw⟩ := Option.bind_eq_some_iff.1 hw
    obtain rfl := Option.some.inj hw
    obtain ⟨p, hrun⟩ := Task.exists_run_of_follow? h hu hw'
    have hrun := Task.run_handOn hrun
    rw [hmodel] at hrun
    exact eq_name_of_stamps hkey hrun hx
  rest hw := Task.follow?_cases h hw

end Marshal

/--
**What comes out has the types of the schemas**: whatever holds a value of a field of a kind that is
not opaque, at any depth, is null or in the form of the kind and of the type that the schema of the
field asks for, and whatever holds the value of a discriminator is the name of the model that the
object was marshalled against.
-/
theorem marshal_typed {r : Registry} {options : MarshalOptions} {name : String} {m : Model}
    {value out : Json} (hm : r.find? name = some m)
    (h : marshal r options name value = .ok out) :
    ∃ body, out = options.wrap body ∧
      Marshal.Typed r (.model m options.mask value) body := by
  rw [marshal_eq hm] at h
  cases hrun : Marshal.model r options.skipNone m options.mask .root value with
  | error e =>
    rw [hrun] at h
    cases h
  | ok body =>
    rw [hrun] at h
    exact ⟨body, (Except.ok.inj h).symm, Marshal.typed_of_run hrun⟩

/-- A keeper's name is given as a boolean, and the kind of a pet is given as that of a mapping. -/
theorem marshal_typed_menagerie :
    let keeper : Json := .obj [("name", .bool true),
      ("pets", .arr [.obj [("kind", .str "cat"), ("keeper", .null), ("toys", .null)]])]
    let out : Json := .obj [("name", .str "true"),
      ("pets", .arr [.obj [("kind", .str "Cat"), ("keeper", .null), ("toys", .null)]])]
    ∃ r m, Registry.load Registry.menagerie = .ok r ∧ r.find? "Keeper" = some m ∧
      marshal r {} "Keeper" keeper = .ok out ∧ Marshal.Typed r (.model m none keeper) out := by
  intro keeper out
  have h : ((Registry.load Registry.menagerie).toOption.any fun r =>
      (marshal r {} "Keeper" keeper).toOption.any (· == out)) = true := by
    cbv
  obtain ⟨r, hl, hout⟩ := exists_of_any_toOption h
  obtain ⟨out', hout, heq⟩ := exists_of_any_toOption hout
  obtain rfl := eq_of_beq heq
  obtain ⟨m, hm, -⟩ := bind_eq_ok.1 hout
  have hm : r.find? "Keeper" = some m := Registry.lookup_eq_ok.1 (mapError_eq_ok.1 hm)
  obtain ⟨body, hbody, htyped⟩ := marshal_typed hm hout
  obtain rfl : out = body := hbody
  exact ⟨r, m, hl, hm, hout, htyped⟩

end FieldMask
