import FieldMask.Proofs.Marshal.Errors
import FieldMask.Proofs.Schema.Definition
import Mathlib

/-!
# Loaded registries

A registry that loads never fails later for its models. The check at the end of loading goes once
through the own fields of all models. That covers what is looked up, flattened and told apart by
common ancestors afterwards, in inherited and cloned fields, in the items of lists and in masked
copies of models.
-/

namespace FieldMask

namespace Registry

/--
**A registry that loads never fails later for its models.** It has definitions, and each of its
models flattens, has a schema and a document, is masked unless the mask selects below a scalar, and
is marshalled and validated against without an error of models.
-/
theorem fair_of_load {document : Json} {r : Registry} (h : Registry.load document = .ok r) :
    (∃ out, r.definitionsDocument = .ok out) ∧
      ∀ name model, r.find? name = some model →
        (∃ flat, r.resolveName name = .ok flat) ∧
        (∃ out, model.schema r = .ok out) ∧
        (∃ out, r.modelDocument model = .ok out) ∧
        (∀ options value e, marshal r options name value = .error e → e.IsOfValue) ∧
        (∀ mask skipMissing e, r.maskModel mask skipMissing model = .error e → e.IsInconsistent) ∧
        ∀ value e, r.validate name value ≠ .error (.model e) := by
  obtain ⟨hp, hc⟩ := of_load h
  have hr : r.Sound := sound_of_check hp hc
  refine ⟨exists_definitionsDocument hp hc, fun name model hm => ?_⟩
  refine ⟨?_, exists_schema hp hc hm, exists_modelDocument hp hc hm, ?_, ?_, ?_⟩
  · obtain ⟨flat, hflat, -⟩ := hr name model hm
    rw [resolveName, lookup_eq_ok.2 hm]
    exact ⟨flat, hflat⟩
  · intro options value e he
    exact (marshal_fair hr hm options value).of_error he
  · intro mask skipMissing e he
    exact (maskModel_sound hr (hr name model hm) mask).of_error he
  · exact validate_ne_model hp hc hm

theorem fair_of_load_menagerie :
    ∃ r model, Registry.load menagerie = .ok r ∧ r.find? "Cat" = some model ∧
      (∃ out, r.modelDocument model = .ok out) ∧
      ∀ options value e, marshal r options "Cat" value = .error e → e.IsOfValue := by
  have h : ((Registry.load menagerie).toOption.any fun r => (r.find? "Cat").isSome) = true := by
    cbv
  obtain ⟨r, hl, h⟩ := exists_of_any_toOption h
  obtain ⟨model, hm⟩ := Option.isSome_iff_exists.1 h
  obtain ⟨-, -, hdocument, hmarshal, -⟩ := (fair_of_load hl).2 "Cat" model hm
  exact ⟨r, model, hl, hm, hdocument, hmarshal⟩

end Registry

end FieldMask
