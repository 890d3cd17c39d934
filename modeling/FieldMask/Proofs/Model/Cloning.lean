import FieldMask.Proofs.Model.Composition
import FieldMask.Proofs.Model.Extension

/-!
# Clones and heirs

A clone has copies of the fields that its sources have when they are flat, without the defaults of
their discriminators; an heir only names its parents. Both have the same fields once they are flat
themselves, whatever the sources have in common and however often they are named, and both are
refused for the same discriminators (`clone_agrees_inherit`): the copies differ from what the heir
collects in the defaults of discriminators alone, and these are given anew.
-/

namespace FieldMask

namespace Registry

variable {r r' : Registry} {name : String} {sources : List String} {flats : List FlatModel}
  {fields found found' : Fields}

/-- Plain models of one name flatten alike if they collect the same but for such defaults. -/
theorem resolve_congr {own own' : Fields} {parents parents' : List String}
    (h : r.collectAll { name, fields := own, parents } = .ok found)
    (h' : r'.collectAll { name, fields := own', parents := parents' } = .ok found')
    (hstamp : stamp name found = stamp name found') :
    r.resolve { name, fields := own, parents }
      = r'.resolve { name, fields := own', parents := parents' } := by
  rw [resolve, resolve, h, h', bind_ok, bind_ok, discriminators_eq_of_stamp hstamp, hstamp]

/-- Copied fields are those of the flat models, but for defaults of discriminators. -/
theorem stamp_copyFields :
    stamp name (copyFields flats) = stamp name (.mergeAll (flats.map (·.fields))) := by
  have hcopies : copyFields flats = .mergeAll (flats.map fun flat => flat.fields.map fun e =>
      (e.1, if e.2.discriminator then { e.2 with default := none } else e.2)) := by
    rw [Fields.mergeAll_eq_ofPairs, copyFields, List.flatMap_def]
  rw [hcopies, Fields.stamp_mergeAll, Fields.stamp_mergeAll, List.map_map, List.map_map]
  congr 1
  refine List.map_congr_left fun flat _ => ?_
  rw [Function.comp, stamp_eq_map, List.map_map]
  exact List.map_congr_left fun e _ => Prod.ext rfl Field.stamped_copy

/-- A model that inherits from models which flatten, under a name that is free, has fields. -/
theorem exists_collectAll_inheriting (hfree : r.find? name = none)
    (h : sources.mapM r.resolveName = .ok flats) (fields : Fields) :
    ∃ found, r.collectAll (.inheriting name sources fields) = .ok found := by
  refine exists_collectAll_of_parents fun acc source hmem => ?_
  obtain ⟨flat, -, hflat⟩ := exists_right_of_mem (mapM_eq_ok.1 h) hmem
  obtain ⟨model, hm, hflat⟩ := bind_eq_ok.1 hflat
  obtain ⟨own, hown, -⟩ := resolve_eq_ok.1 hflat
  refine exists_collect_of_collect ((collect_root (lookup_eq_ok.1 hm)).2 hown) (fun n hn => ?_) acc
  exact .inr (List.mem_singleton.1 hn ▸ hfree)

/-- Copies and further fields are what an heir collects, but for defaults of discriminators. -/
theorem stamp_copied (h : r.collectAll (.inheriting name sources fields) = .ok found)
    (hflats : sources.mapM r.resolveName = .ok flats) :
    stamp name (Keyed.putAll (copyFields flats) fields) = stamp name found := by
  have hbelow : List.Forall₂ r.FlatAs sources (flats.map (·.fields)) := by
    refine List.forall₂_map_right_iff.2 ((mapM_eq_ok.1 hflats).imp fun source flat hflat => ?_)
    exact .inr ⟨flat, hflat, rfl⟩
  calc stamp name (Keyed.putAll (copyFields flats) fields)
      = Keyed.putAll (stamp name (Fields.mergeAll (flats.map (·.fields)))) (stamp name fields) := by
        rw [stamp_putAll, stamp_copyFields]
    _ = stamp name (Fields.mergeAll (flats.map (·.fields) ++ [Keyed.ofPairs fields])) := by
        rw [← stamp_putAll, Fields.mergeAll_concat, Keyed.putAll_ofPairs]
    _ = stamp name found := stamp_merged h hbelow name

/--
**Clones and heirs agree.** In any registry, under a free name and from registered models that all
flatten, both can be registered, each without the other, and then both flatten to the same model, or
both are refused for the same discriminators.
-/
theorem clone_agrees_inherit (hfree : r.find? name = none)
    (hs : ∀ source ∈ sources, ∃ flat, r.resolveName source = .ok flat) (fields : Fields) :
    ∃ cloned inherited, r.clone name sources fields = .ok cloned ∧
      r.inherit name sources fields = .ok inherited ∧
      cloned.resolveName name = inherited.resolveName name ∧
      ((∃ flat, inherited.resolveName name = .ok flat) ∨
        ∃ found, inherited.resolveName name = .error (.duplicateDiscriminator name found)) := by
  obtain ⟨flats, hflats⟩ := exists_mapM_eq_ok hs
  have hregistered : ∀ source ∈ sources, source ≠ name ∧ ∃ m, r.find? source = some m := by
    intro source hmem
    obtain ⟨flat, hflat⟩ := hs source hmem
    obtain ⟨m, hm, -⟩ := bind_eq_ok.1 hflat
    refine ⟨?_, m, lookup_eq_ok.1 hm⟩
    rintro rfl
    cases hfree.symm.trans (lookup_eq_ok.1 hm)
  let copy : Model := { name, fields := Keyed.putAll (copyFields flats) fields }
  let heir : Model := .inheriting name sources fields
  have hclone : r.clone name sources fields = .ok (r.put copy) := by
    rw [clone, hflats, bind_ok]
    exact define_eq_ok.2 ⟨hfree, List.forall_mem_nil _, rfl⟩
  have hinherit : r.inherit name sources fields = .ok (r.put heir) :=
    define_eq_ok.2 ⟨hfree, hregistered, rfl⟩
  have hcopy : r.collectAll copy = .ok copy.fields :=
    collectAll_of_parents_eq_nil rfl (Keyed.nodup_keys_putAll Keyed.nodup_keys_ofPairs)
  obtain ⟨found, hfound⟩ := exists_collectAll_inheriting hfree hflats fields
  -- both are registered as something new, so all that they are made of stays as it was
  have hresolve (model : Model) (hname : model.name = name) {own : Fields}
      (hown : r.collectAll model = .ok own) :
      (r.put model).resolveName name = r.resolve model := by
    have hm : (r.put model).find? name = some model := by rw [find?_put, if_pos hname.symm]
    rw [resolveName, lookup_eq_ok.2 hm, bind_ok]
    exact (extends_put (hname ▸ hfree)).resolve_eq hown
  refine ⟨_, _, hclone, hinherit, ?_, ?_⟩
  · rw [hresolve copy rfl hcopy, hresolve heir rfl hfound]
    exact resolve_congr hcopy hfound (stamp_copied hfound hflats)
  · rw [hresolve heir rfl hfound]
    cases h : r.resolve heir with
    | ok flat => exact .inl ⟨flat, rfl⟩
    | error e =>
      obtain ⟨-, rfl⟩ := (resolve_eq_error hfound).1 h
      exact .inr ⟨_, rfl⟩

theorem clone_agrees_inherit_diamond :
    let sources := ["Cat", "Dog", "Cat"]
    diamond.find? "Mix" = none ∧
      (∀ source ∈ sources, ∃ flat, diamond.resolveName source = .ok flat) ∧
      ∃ cloned inherited flat, diamond.clone "Mix" sources [("tail", .raw)] = .ok cloned ∧
        diamond.inherit "Mix" sources [("tail", .raw)] = .ok inherited ∧
        cloned.resolveName "Mix" = .ok flat ∧ inherited.resolveName "Mix" = .ok flat ∧
        Keyed.keys flat.fields = ["kind", "legs", "lives", "tail"] := by
  intro sources
  have hfree : diamond.find? "Mix" = none := by cbv
  have hs : ∀ source ∈ sources, ∃ flat, diamond.resolveName source = .ok flat := by
    have hcat : ∃ flat, diamond.resolveName "Cat" = .ok flat := exists_of_isSome_toOption (by cbv)
    have hdog : ∃ flat, diamond.resolveName "Dog" = .ok flat := exists_of_isSome_toOption (by cbv)
    simp only [sources, List.forall_mem_cons]
    exact ⟨hcat, hdog, hcat, List.forall_mem_nil _⟩
  obtain ⟨cloned, inherited, hcloned, hinherited, hsame, -⟩ :=
    clone_agrees_inherit hfree hs [("tail", .raw)]
  have hflat : ((diamond.clone "Mix" sources [("tail", .raw)]).toOption.any fun cloned =>
      (cloned.resolveName "Mix").toOption.any fun flat =>
        Keyed.keys flat.fields == ["kind", "legs", "lives", "tail"]) = true := by
    cbv
  obtain ⟨cloned', hcloned', hflat⟩ := exists_of_any_toOption hflat
  obtain rfl := Except.ok.inj (hcloned.symm.trans hcloned')
  obtain ⟨flat, hflat, hkeys⟩ := exists_of_any_toOption hflat
  exact ⟨hfree, hs, cloned, inherited, flat, hcloned, hinherited, hflat, hsame ▸ hflat,
    eq_of_beq hkeys⟩

end Registry

end FieldMask
