import FieldMask.Proofs.Model.Ranked
import Mathlib

/-!
# Registries that calls leave behind

While an application declares its models, it calls a registry again and again: to define a model,
to let one inherit from others, to clone others. Here a call is a computation on the registry that
it is given (`Call.run`), which keeps what was written before it failed. It fails just when the
function on registries does, and then nothing was written; otherwise it has put one new model whose
parents were there before (`Call.run_puts`).

What every call keeps, a sequence of calls keeps: the registry that it leaves behind is `Orderly`
(`orderly_afterAll`), for whatever models were built and handed to it.
-/

namespace FieldMask

/-! ## Building models -/

/-- The models that are built from a name, from a list of parents or from flat models, on and on. -/
inductive Model.Built : Model → Prop
  | new (name : String) : Model.Built { name }
  | inheriting (name : String) (parents : List String) (fields : Fields) :
      Model.Built (.inheriting name parents fields)
  | ofFlats (name : String) (flats : List FlatModel) :
      Model.Built { name, fields := Registry.copyFields flats }
  | flat {r : Registry} {model : Model} {flat : FlatModel} (h : r.resolve model = .ok flat) :
      Model.Built flat.toModel
  | field {model : Model} (h : Model.Built model) (name : String) (field : Field) :
      Model.Built { model with fields := Keyed.put name field model.fields }
  | extend {model : Model} (h : Model.Built model) (fields : Fields) :
      Model.Built (model.extend fields)
  | parent {model : Model} (h : Model.Built model) (name : String) :
      Model.Built { model with parents := model.parents ++ [name] }
  | mask {model : Model} (h : Model.Built model) (mask : Mask) :
      Model.Built { model with mask := some mask }
  | description {model : Model} (h : Model.Built model) (text : String) :
      Model.Built { model with description := some text }
  | strict {model : Model} (h : Model.Built model) (strict : Bool) :
      Model.Built { model with strict }

/-- However a model is built, its own fields have distinct names. -/
theorem Model.Built.nodup {model : Model} (h : model.Built) : (Keyed.keys model.fields).Nodup := by
  induction h with
  | new name => exact List.nodup_nil
  | inheriting name parents fields => exact Keyed.nodup_keys_putAll List.nodup_nil
  | ofFlats name flats => exact Keyed.nodup_keys_putAll List.nodup_nil
  | flat h => exact (Registry.settled_of_resolve h).nodup
  | field h name field ih => exact Keyed.nodup_keys_put ih
  | extend h fields ih => exact Keyed.nodup_keys_putAll ih
  | parent h name ih => exact ih
  | mask h mask ih => exact ih
  | description h text ih => exact ih
  | strict h strict ih => exact ih

/-! ## Computations on a registry -/

/-- A computation on a registry. What it has written stays when it fails. -/
abbrev Registering := EStateM ModelError Registry

namespace Registering

variable {α β : Type}

/-- What is asked of the registry as it is. -/
def ask (f : Registry → Except ModelError α) : Registering α := fun r =>
  match f r with
  | .ok a => .ok a r
  | .error e => .error e r

/-- Register a model: its name must be free, its parents registered, and none of them itself. -/
def define (model : Model) : Registering Model := do
  if (← get).contains model.name then throw (.duplicateModel model.name)
  model.parents.forM fun parent =>
    if parent = model.name then throw (.inheritanceCycle model.name)
    else discard (ask (·.lookup parent))
  modify (·.put model)
  return model

/-- The computation leaves the registry as it is and ends as the outcome says. -/
def Reads (r : Registry) (x : Registering α) (outcome : Except ModelError α) : Prop :=
  x r = match outcome with
    | .ok a => .ok a r
    | .error e => .error e r

variable {r : Registry} {x : Registering α} {outcome : Except ModelError α}

theorem reads_pure (a : α) : Reads r (pure a) (pure a) := rfl

theorem reads_throw (e : ModelError) : Reads r (throw e : Registering α) (throw e) := rfl

theorem Reads.bind_ok {f : α → Registering β} {a : α} (hx : Reads r x (.ok a)) :
    (x >>= f) r = f a r := by
  show EStateM.bind x f r = _
  rw [EStateM.bind, hx]

theorem Reads.bind_error {f : α → Registering β} {e : ModelError} (hx : Reads r x (.error e)) :
    (x >>= f) r = .error e r := by
  show EStateM.bind x f r = _
  rw [EStateM.bind, hx]

theorem Reads.bind {f : α → Registering β} {g : α → Except ModelError β} (hx : Reads r x outcome)
    (hf : ∀ a, Reads r (f a) (g a)) : Reads r (x >>= f) (outcome >>= g) := by
  cases outcome with
  | ok a => exact hx.bind_ok.trans (hf a)
  | error e => exact hx.bind_error

theorem reads_ask (f : Registry → Except ModelError α) : Reads r (ask f) (f r) := rfl

theorem Reads.discard (hx : Reads r x outcome) : Reads r (discard x) (discard outcome) := by
  unfold Reads at hx
  cases outcome <;>
  · show EStateM.map _ x r = _
    rw [EStateM.map, hx]
    rfl

theorem reads_forM {f : α → Registering Unit} {g : α → Except ModelError Unit} {l : List α}
    (h : ∀ a ∈ l, Reads r (f a) (g a)) : Reads r (l.forM f) (l.forM g) := by
  induction l with
  | nil => exact reads_pure ()
  | cons a l ih =>
    obtain ⟨ha, hl⟩ := List.forall_mem_cons.1 h
    exact ha.bind fun _ => ih hl

theorem reads_mapM {f : α → Registering β} {g : α → Except ModelError β} {l : List α}
    (h : ∀ a ∈ l, Reads r (f a) (g a)) : Reads r (l.mapM f) (l.mapM g) := by
  induction l with
  | nil => exact reads_pure []
  | cons a l ih =>
    obtain ⟨ha, hl⟩ := List.forall_mem_cons.1 h
    rw [List.mapM_cons, List.mapM_cons]
    exact ha.bind fun b => (ih hl).bind fun bs => reads_pure (b :: bs)

/--
What can become of a computation that registers a model with a property, and with it of the outcome
on registries: it fails and leaves the registry as it is, or it puts such a model under a free name,
whose parents are registered.
-/
inductive Puts (P : Model → Prop) (r : Registry) (x : Registering Model)
    (outcome : Except ModelError Registry) : Prop
  | fails (e : ModelError) (hx : x r = .error e r) (ho : outcome = .error e)
  | puts (model : Model) (hm : P model) (hfree : r.find? model.name = none)
      (hp : ∀ parent ∈ model.parents, parent ≠ model.name ∧ ∃ m, r.find? parent = some m)
      (hx : x r = .ok model (r.put model)) (ho : outcome = .ok (r.put model))

variable {P : Model → Prop}

theorem Reads.puts {f : α → Registering Model} {g : α → Except ModelError Registry}
    (hx : Reads r x outcome) (hf : ∀ a, Puts P r (f a) (g a)) :
    Puts P r (x >>= f) (outcome >>= g) := by
  cases outcome with
  | error e => exact .fails e hx.bind_error rfl
  | ok a =>
    cases hf a with
    | fails e ha ho => exact .fails e (hx.bind_ok.trans ha) ho
    | puts model hm hfree hp ha ho => exact .puts model hm hfree hp (hx.bind_ok.trans ha) ho

theorem define_puts {model : Model} (hm : P model) : Puts P r (define model) (r.define model) := by
  have hget : Reads r get (.ok r) := rfl
  have hparents : Reads r
      (model.parents.forM fun parent =>
        if parent = model.name then throw (.inheritanceCycle model.name)
        else Functor.discard (ask (·.lookup parent)))
      (model.parents.forM fun parent =>
        if parent = model.name then throw (.inheritanceCycle model.name)
        else Functor.discard (r.lookup parent)) := by
    refine reads_forM fun parent _ => ?_
    split
    · exact reads_throw _
    · exact (reads_ask (·.lookup parent)).discard
  -- everything before the last step only reads, so a failure comes before the model is put
  have hcases : (∃ e, define model r = .error e r ∧ r.define model = .error e) ∨
      define model r = .ok model (r.put model) ∧ r.define model = .ok (r.put model) := by
    unfold define Registry.define
    rw [hget.bind_ok]
    by_cases hc : r.contains model.name = true
    · rw [if_pos hc, if_pos hc]
      exact .inl ⟨_, (reads_throw _).bind_error, rfl⟩
    · rw [if_neg hc, if_neg hc]
      generalize (model.parents.forM fun parent =>
        if parent = model.name then throw (.inheritanceCycle model.name)
        else Functor.discard (r.lookup parent) : Except ModelError Unit) = outcome at hparents ⊢
      cases outcome with
      | error e => exact .inl ⟨e, hparents.bind_error, rfl⟩
      | ok u => exact .inr ⟨hparents.bind_ok, rfl⟩
  rcases hcases with ⟨e, hx, ho⟩ | ⟨hx, ho⟩
  · exact .fails e hx ho
  · obtain ⟨hfree, hp, -⟩ := Registry.define_eq_ok.1 ho
    exact .puts model hm hfree hp hx ho

end Registering

/-! ## Calls -/

/-- A call to a registry. -/
inductive Call
  | define (model : Model)
  | inherit (name : String) (parents : List String) (fields : Fields)
  | clone (name : String) (sources : List String) (fields : Fields)

namespace Call

/-- What a call does to the registry that it is given. -/
def run : Call → Registering Model
  | define model => Registering.define model
  | inherit name parents fields => Registering.define (.inheriting name parents fields)
  | clone name sources fields => do
    let flats ← sources.mapM fun source => Registering.ask (·.resolveName source)
    Registering.define { name, fields := Keyed.putAll (Registry.copyFields flats) fields }

/-- The registry that a call ends in, or why it fails. -/
def outcome (r : Registry) : Call → Except ModelError Registry
  | define model => r.define model
  | inherit name parents fields => r.inherit name parents fields
  | clone name sources fields => r.clone name sources fields

/-- The registry that a call leaves behind, whether it fails or not. -/
def after (r : Registry) (call : Call) : Registry :=
  match call.run r with
  | .ok _ r' => r'
  | .error _ r' => r'

/-- The registry that calls leave behind, one after the other. -/
def afterAll (r : Registry) (calls : List Call) : Registry := calls.foldl after r

/-- A model that is handed over with the call is built. -/
def Built : Call → Prop
  | define model => model.Built
  | inherit .. | clone .. => True

variable {r : Registry} {call : Call}

/-- **A call fails and changes nothing, or puts one model**, just as it does on registries. -/
theorem run_puts (r : Registry) (call : Call) :
    Registering.Puts (fun model => call.Built → model.Built) r call.run (call.outcome r) := by
  cases call with
  | define model => exact Registering.define_puts id
  | inherit name parents fields => exact Registering.define_puts fun _ => .inheriting ..
  | clone name sources fields =>
    have hflats : Registering.Reads r
        (sources.mapM fun source => Registering.ask (·.resolveName source))
        (sources.mapM r.resolveName) :=
      Registering.reads_mapM fun source _ => Registering.reads_ask (·.resolveName source)
    refine hflats.puts fun flats => Registering.define_puts fun _ => ?_
    exact (Model.Built.ofFlats name flats).extend fields

end Call

/-! ## What calls keep -/

/-- The own fields of every model have distinct names, and parents rank below their models. -/
structure Registry.Orderly (r : Registry) : Prop where
  nodup : ∀ {name model}, r.find? name = some model → (Keyed.keys model.fields).Nodup
  ranked : ∃ rank, r.Ranked rank

namespace Call

variable {r : Registry} {call : Call}

theorem orderly_empty : Registry.empty.Orderly where
  nodup h := by cases h
  ranked := ⟨fun _ => 0, Registry.ranked_empty _⟩

/-- A call keeps the registry orderly, whether it fails or not. -/
theorem orderly_after (hr : r.Orderly) (hb : call.Built) : (call.after r).Orderly := by
  unfold after
  cases run_puts r call with
  | fails e hrun _ => rwa [hrun]
  | puts model hbuilt hfree hp hrun _ =>
    rw [hrun]
    obtain ⟨rank, hrank⟩ := hr.ranked
    refine ⟨fun {name m} hm => ?_, hrank.put hfree fun parent hmem => (hp parent hmem).2⟩
    rw [Registry.find?_put] at hm
    split at hm
    · obtain rfl := Option.some.inj hm
      exact (hbuilt hb).nodup
    · exact hr.nodup hm

theorem orderly_afterAll {calls : List Call} (hr : r.Orderly) (hb : ∀ call ∈ calls, call.Built) :
    (afterAll r calls).Orderly := by
  induction calls generalizing r with
  | nil => exact hr
  | cons call calls ih =>
    obtain ⟨hcall, hcalls⟩ := List.forall_mem_cons.1 hb
    exact ih (orderly_after hr hcall) hcalls

/--
**The registry that calls leave behind is in order**, whichever of them fail: every model is under
its own name and has fields of distinct names, its parents are registered, and no chain of parents
comes back to where it began; a further call that fails leaves it as it is. So every registered
model has ancestors, and fails to flatten for several discriminators alone.
-/
theorem acyclic_afterAll {calls : List Call} (hb : ∀ call ∈ calls, call.Built) {r : Registry}
    (hr : afterAll .empty calls = r) :
    (∀ e ∈ r.models.entries, e.1 = e.2.name ∧ (Keyed.keys e.2.fields).Nodup ∧
        ∀ parent ∈ e.2.parents, r.contains parent = true) ∧
      (∀ name, ¬Relation.TransGen r.Parent name name) ∧
      (∀ call e r', run call r = .error e r' → outcome r call = .error e ∧ r' = r) ∧
      ∀ name, r.contains name = true →
        (∃ set, r.ancestors name = .ok set) ∧
        ∀ e, r.resolveName name = .error e → ∃ fields, e = .duplicateDiscriminator name fields := by
  have horderly : r.Orderly := hr ▸ orderly_afterAll orderly_empty hb
  obtain ⟨rank, hrank⟩ := horderly.ranked
  refine ⟨fun e he => ?_, hrank.acyclic, fun call e r' hrun => ?_, fun name hname => ?_⟩
  · have hm : r.find? e.1 = some e.2 := Registry.find?_of_mem he
    refine ⟨r.named e he, horderly.nodup hm, fun parent hmem => ?_⟩
    exact Registry.contains_iff.2 (hrank.registered ⟨e.2, hm, hmem⟩)
  · cases run_puts r call with
    | fails e' herror hout =>
      obtain ⟨rfl, rfl⟩ := EStateM.Result.error.inj (herror.symm.trans hrun)
      exact ⟨hout, rfl⟩
    | puts model _ _ _ hok _ => cases hok.symm.trans hrun
  · obtain ⟨model, hm⟩ := Registry.contains_iff.1 hname
    exact ⟨hrank.exists_ancestors hm, fun e he => hrank.resolveName_eq_error hm he⟩

theorem acyclic_afterAll_twin :
    let kind : Field := { shape := .scalar .string, discriminator := true }
    let calls : List Call := [
      .define (Model.extend { name := "Animal" } [("kind", kind)]),
      .inherit "Cat" ["Animal"] [("lives", .ofKind .integer), ("kind", .raw), ("kind", kind)],
      .inherit "Dog" ["Animal", "Pet"] [],
      .inherit "Cat" [] [],
      .clone "Tag" [] [("tag", kind)],
      .inherit "Twin" ["Cat", "Tag"] [],
      .clone "Other" ["Cat", "Twin"] []]
    ∃ r, afterAll .empty calls = r ∧ r.names = ["Animal", "Cat", "Tag", "Twin"] ∧
      (∃ set, r.ancestors "Twin" = .ok set) ∧
      ∃ e, r.resolveName "Twin" = .error e ∧
        ∃ fields, e = .duplicateDiscriminator "Twin" fields := by
  intro kind calls
  have hb : ∀ call ∈ calls, call.Built := by
    refine List.forall_mem_cons.2 ⟨(Model.Built.new "Animal").extend [("kind", kind)], ?_⟩
    simp [Built]
  obtain ⟨-, -, -, hr⟩ := acyclic_afterAll hb rfl
  have hname : (afterAll .empty calls).contains "Twin" = true := by cbv
  refine ⟨_, rfl, by cbv, (hr "Twin" hname).1, ?_⟩
  have h : (afterAll .empty calls).resolveName "Twin"
      = .error (.duplicateDiscriminator "Twin" ["kind", "tag"]) := by
    cbv
  exact ⟨_, h, (hr "Twin" hname).2 _ h⟩

end Call

end FieldMask
