import FieldMask.Proofs.Marshal.Steps
import FieldMask.Proofs.Model.Picking

/-!
# Picked fields come out as picked members

A mask picks fields of a model before a value is marshalled, or members of what came out. If what
its selectors leave of each field yields what they leave of the member that comes out for it, then
the fields that they pick come out as the members that they pick (`eq_of_filter`).

`Selects` says of two outcomes that the second is what a selection makes of the first.
-/

namespace FieldMask

/-- What the selection makes of the one outcome, if it makes anything of it, is the other. -/
def Selects (selection : List Selector) (full out : Json) : Prop :=
  ∀ place p, full.mapObjects (Selector.filter selection true) place = .ok p → out = p

section Selects

variable {selection : List Selector}

theorem selects_null {out : Json} : Selects selection .null out := nofun

theorem eq_of_mapObjectsFrom {fulls outs ps : List Json} {place : Pointer} {index : Nat}
    (h : List.Forall₂ (Selects selection) fulls outs)
    (hps : Json.mapObjectsFrom (Selector.filter selection true) place index fulls = .ok ps) :
    outs = ps := by
  induction h generalizing index ps with
  | nil => exact Except.ok.inj hps
  | cons hab _ ih =>
    obtain ⟨w, hw, hps⟩ := bind_eq_ok.1 hps
    obtain ⟨ws, hws, hps⟩ := bind_eq_ok.1 hps
    rw [← pure_eq_ok.1 hps, hab _ w hw, ih hws]

/-- A mask selects item by item. -/
theorem selects_arr {fulls outs : List Json} (h : List.Forall₂ (Selects selection) fulls outs) :
    Selects selection (.arr fulls) (.arr outs) := by
  intro place p hp
  obtain ⟨ps, hps, hp⟩ := bind_eq_ok.1 hp
  rw [← pure_eq_ok.1 hp, eq_of_mapObjectsFrom h hps]

end Selects

namespace Marshal

variable {r : Registry} {selection : List Selector}

/-- Whatever comes out for the field is the value. -/
def Yields (r : Registry) (name : String) (place : Pointer) (members : Members) (key : String)
    (field : Field) (value : Json) : Prop :=
  ∀ out, output r false name place members (key, field) = .ok out → out = value

section Picking

variable {name : String} {place p q : Pointer} {members full : Members} {flat : FlatModel}

/-- Fields that yield the values come out as these. -/
theorem eq_of_yields {fields : Fields} {out values : Members}
    (h : fields.mapM (entry r false name place members) = .ok out)
    (hy : Keyed.Related (Yields r name place members) fields values) : out = values := by
  have hrel := related_of_mapM h
  clear h
  induction hy generalizing out with
  | nil =>
    cases hrel
    rfl
  | cons hab _ ih =>
    cases hrel with
    | cons hout hrel =>
      rw [ih hrel]
      congr 1
      exact Prod.ext (hout.1.symm.trans hab.1) (hab.2 _ hout.2)

/-- The fields that a mask selects come out as the members that it selects. -/
theorem eq_of_filter {masked : Model} {out ps : Members}
    (hs : Registry.Settled flat.name flat.fields)
    (hfull : flat.fields.mapM (entry r false name place members) = .ok full)
    (hsel : ∀ s ∈ selection, r.Follows
      (fun key field value => output r false name place members (key, field) = .ok value)
      (Yields r name place members) p q flat.fields s s)
    (hm : r.maskFlat true selection p flat = .ok masked)
    (hout : masked.fields.mapM (entry r false name place members) = .ok out)
    (hps : Selector.filter selection true q full = .ok ps) : out = ps := by
  rw [← List.map_id selection] at hps
  refine eq_of_yields hout (Registry.related_of_filter ⟨fun _ => .rfl, fun _ => rfl⟩ hs.nodup
    (related_of_mapM hfull) ?_ hsel hm hps)
  exact fun key field value hvalue out h => Except.ok.inj (h.symm.trans hvalue)

end Picking

end Marshal

end FieldMask
