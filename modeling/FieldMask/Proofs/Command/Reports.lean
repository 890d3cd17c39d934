import FieldMask.Command.Run
import FieldMask.Proofs.Command.Arguments
import FieldMask.Proofs.Json.Roundtrip
import Mathlib

/-!
# Reports of validation

With `--json`, validation answers by a report: one line with the text of an object, which tells by
its member `valid` whether the exit code is 0. Behind the arguments and the declarations every way
to end is such a report (`isReport_runValidate`), and a report has one line whatever it quotes,
since the compact text of a value escapes line breaks (`Readable.isLine`).

One way to end comes before that: declarations that do not load are reported as a line of error,
with or without the option. It is the only exception (`isReport_validate_iff`), wherever the
declarations and the payload come from and whatever lawful parser sorts out the arguments.
-/

namespace FieldMask

/-! ## Texts of one line -/

/-- The text has no line break. -/
def IsLine (text : String) : Prop := '\n' ∉ text.toList

instance (text : String) : Decidable (IsLine text) := inferInstanceAs (Decidable (¬_))

theorem IsLine.append {a b : String} (ha : IsLine a) (hb : IsLine b) : IsLine (a ++ b) := by
  rw [IsLine, String.toList_append, List.mem_append]
  exact fun h => h.elim ha hb

theorem isLine_intercalate {texts : List String} (h : ∀ t ∈ texts, IsLine t) :
    IsLine (",".intercalate texts) := by
  cases texts with
  | nil => decide
  | cons t texts =>
    obtain ⟨ht, htexts⟩ := List.forall_mem_cons.1 h
    rw [IsLine, Json.toList_intercalate, List.mem_append, List.mem_flatMap]
    rintro (hmem | ⟨u, hu, hmem⟩)
    · exact ht hmem
    · rcases List.mem_cons.1 hmem with heq | hmem
      · cases heq
      · exact htexts u hu hmem

namespace Json

theorem hexDigit_ne_newline {n : Nat} (h : n < 16) : hexDigit n ≠ '\n' := by
  revert n
  decide

/-- A line break is written as an escape. -/
theorem newline_not_mem_escapeChar (c : Char) : '\n' ∉ escapeChar c := by
  unfold escapeChar
  split_ifs with hquote hslash hc
  · decide
  · decide
  · split
    case h_6 =>
      have hlt : c.toNat < 32 := hc
      have hhigh := hexDigit_ne_newline (n := c.toNat / 16) (by omega)
      have hlow := hexDigit_ne_newline (n := c.toNat % 16) (by omega)
      simp [hhigh.symm, hlow.symm]
    all_goals decide
  · rw [List.mem_singleton]
    rintro rfl
    exact hc (by decide)

theorem isLine_quote (s : String) : IsLine (quote s) := by
  rw [IsLine, toList_quote, List.mem_cons, List.mem_append, List.mem_flatMap]
  rintro (h | ⟨c, -, h⟩ | h)
  · cases h
  · exact newline_not_mem_escapeChar c h
  · cases List.mem_singleton.1 h

theorem isLine_intText (z : Int) : IsLine (Number.intText z) := by
  have hdigits : '\n' ∉ Nat.toDigits 10 z.natAbs := fun h =>
    absurd (Nat.isDigit_of_mem_toDigits (by decide) (by decide) h) (by decide)
  rw [IsLine, Number.intText, String.toList_ofList]
  split
  · exact List.not_mem_cons_of_ne_of_not_mem (by decide) hdigits
  · exact hdigits

/-- The compact text of a value is one line, whatever its strings are. -/
theorem Readable.isLine {depth : Nat} {v : Json} (h : Readable depth v) : IsLine v.compact := by
  induction h with
  | null => decide
  | bool b => cases b <;> decide
  | int z h => exact isLine_intText z
  | str s => exact isLine_quote s
  | arr _ ih =>
    rw [compact, compactItems_eq]
    refine ((by decide : IsLine "[").append (isLine_intercalate ?_)).append (by decide)
    exact List.forall_mem_map.2 ih
  | obj _ _ ih =>
    rw [compact, compactMembers_eq]
    refine ((by decide : IsLine "\x7b").append (isLine_intercalate ?_)).append (by decide)
    refine List.forall_mem_map.2 fun m hm => ?_
    exact ((isLine_quote m.1).append (by decide)).append (ih m hm)

theorem readable_pair {depth : Nat} {k l : String} {v w : Json} (hk : k ≠ l)
    (hv : Readable depth v) (hw : Readable depth w) :
    Readable (depth + 1) (.obj [(k, v), (l, w)]) := by
  refine .obj ?_ (List.forall_mem_cons.2 ⟨hv, List.forall_mem_singleton.2 hw⟩)
  exact List.nodup_cons.2 ⟨List.mem_singleton.not.2 hk, List.nodup_singleton l⟩

end Json

/-! ## Reports -/

theorem LoadError.exitCode_ne_zero (e : LoadError) : e.exitCode ≠ 0 := by
  cases e <;> exact Nat.succ_ne_zero _

namespace Response

/--
What is printed is one line, the text of an object with a member that tells whether the exit code
is 0.
-/
def IsReport (response : Response) : Prop :=
  ∃ line members valid, response.stdout = line ++ "\n" ∧ IsLine line ∧
    Json.read line = .ok (.obj members) ∧ members.lookup "valid" = some (.bool valid) ∧
    (valid = true ↔ response.code = 0)

/-- Without a line there is no report. -/
theorem not_isReport_failed {line : String} {code : Nat} : ¬(failed line code).IsReport := by
  rintro ⟨text, _, _, hout, -⟩
  have hlist := congrArg String.toList hout
  rw [String.toList_append] at hlist
  exact List.cons_ne_nil _ _ (List.append_eq_nil_iff.1 hlist.symm).2

theorem isReport_of_members {members : Members} {valid : Bool} {code : Nat}
    (hr : Json.Readable Json.nestingLimit (.obj members))
    (hv : members.lookup "valid" = some (.bool valid)) (hc : valid = true ↔ code = 0) :
    IsReport { printed (Json.obj members).compact with code } :=
  ⟨_, members, valid, rfl, hr.isLine, Json.read_compact hr, hv, hc⟩

end Response

namespace Command

open Response

theorem isReport_reportError (message : String) {code : Nat} (hc : code ≠ 0) :
    (reportError true message code).IsReport :=
  isReport_of_members (Json.readable_pair (by decide) (.bool false) (.str message)) rfl
    (by simpa using hc)

theorem isReport_reportInvalid (errors : List SchemaError) :
    (reportInvalid true errors).IsReport := by
  have hlist {depth : Nat} : Json.Readable (depth + 2) (.arr (errors.map fun e =>
      Json.obj [("path", .str e.path), ("message", .str e.message)])) :=
    .arr (List.forall_mem_map.2 fun e _ => Json.readable_pair (by decide) (.str _) (.str _))
  exact isReport_of_members (Json.readable_pair (by decide) (.bool false) hlist) rfl (by decide)

theorem isReport_valid : (printed (Json.obj [("valid", .bool true)]).compact).IsReport :=
  isReport_of_members (.obj (by decide) (List.forall_mem_singleton.2 (.bool true))) rfl (by decide)

variable {files : FileView} {declarations payload model : String}

/-- Once the declarations are loaded, every way to end is a report. -/
theorem isReport_runValidate {r : Registry} (h : Registry.loadFrom files declarations = .ok r) :
    (runValidate files declarations payload model true).IsReport := by
  rw [runValidate, withRegistry, h, orFail]
  cases Document.load files payload with
  | error e => exact isReport_reportError _ e.exitCode_ne_zero
  | ok value =>
    show (orFail (r.validate model value) _ _).IsReport
    cases r.validate model value with
    | error e =>
      cases e with
      | invalid errors => exact isReport_reportInvalid errors
      | model e => exact isReport_reportError _ two_ne_zero
      | invalidSchema fault => exact isReport_reportError _ two_ne_zero
    | ok _ => exact isReport_valid

/-- Declarations that are not loaded are not reported. -/
theorem runValidate_of_error {json : Bool} {e : LoadError}
    (h : Registry.loadFrom files declarations = .error e) :
    runValidate files declarations payload model json
      = failed ("Error loading declarations: " ++ e.message) e.exitCode := by
  rw [runValidate, withRegistry, h, orFail]

end Command

/-! ## Validation -/

namespace Command

open Arguments

theorem validateSpec_proper : validateSpec.Proper where
  nodup := by decide
  nonempty := by decide
  unsplit := by decide

variable {parser : ArgumentParser} {d p m : String}

/-- The arguments of validation with `--json`, written out. -/
theorem written_validate (hd : IsOperand d) (hp : IsOperand p) (hm : IsOperand m) :
    Written validateSpec.options [d, p, "--model", m, "--json"]
      { operands := [d, p], options := [("model", some m), ("json", none)] } := by
  have hmodel : valued "model" none .text ∈ validateSpec.options := by simp [validateSpec]
  have hjson : flag "json" none ∈ validateSpec.options := by simp [validateSpec]
  exact .operand hd (.operand hp (.value hmodel rfl hm rfl (.flag hjson rfl rfl .nil)))

theorem ofName_validate (hparser : parser.Lawful) (hd : IsOperand d) (hp : IsOperand p)
    (hm : IsOperand m) :
    ofName parser "validate" [d, p, "--model", m, "--json"] = .ok (.validate d p m true) := by
  have hsort := hparser.sort_written validateSpec_proper (written_validate hd hp hm) (by simp)
    (.cons rfl (.cons rfl .nil))
  show (parser.sort validateSpec _ >>= _) = _
  rw [hsort]
  rfl

end Command

namespace Invocation

variable {parser : ArgumentParser} {files : FileView} {d p m : String}

theorem ofArguments_validate (hparser : parser.Lawful) (hd : IsOperand d) (hp : IsOperand p)
    (hm : IsOperand m) :
    ofArguments parser ["validate", d, p, "--model", m, "--json"]
      = .run (.validate d p m true) := by
  rw [ofArguments, if_neg (by simp), ofOptions, if_neg (by decide), if_neg (by decide),
    if_neg (by decide)]
  show ofCommand parser "validate" _ = _
  rw [ofCommand, if_neg (by decide), Command.ofName_validate hparser hd hp hm]

theorem respond_validate (hparser : parser.Lawful) (files : FileView) (hd : IsOperand d)
    (hp : IsOperand p) (hm : IsOperand m) :
    (ofArguments parser ["validate", d, p, "--model", m, "--json"]).respond parser files
      = Command.runValidate files d p m true :=
  congrArg (respond parser files) (ofArguments_validate hparser hd hp hm)

/--
**Validation with `--json` answers by a report if and only if the declarations load**, from a file
or from the network. Without a report it prints nothing, and it fails. The two sources and the name
of the model are operands: what looks like an option is none of them.
-/
theorem isReport_validate_iff (hparser : parser.Lawful) (files : FileView) (hd : IsOperand d)
    (hp : IsOperand p) (hm : IsOperand m) :
    let invocation := ofArguments parser ["validate", d, p, "--model", m, "--json"]
    let response := invocation.respond parser files
    (response.IsReport ↔ ∃ r, Registry.loadFrom files d = .ok r) ∧
      (¬response.IsReport → response.stdout = "" ∧ response.code ≠ 0) := by
  intro invocation response
  rw [show response = _ from respond_validate hparser files hd hp hm]
  cases hload : Registry.loadFrom files d with
  | ok r =>
    have hreport : (Command.runValidate files d p m true).IsReport :=
      Command.isReport_runValidate hload
    exact ⟨iff_of_true hreport ⟨r, rfl⟩, fun hnot => absurd hreport hnot⟩
  | error e =>
    rw [Command.runValidate_of_error hload]
    refine ⟨iff_of_false Response.not_isReport_failed ?_, fun _ => ⟨rfl, e.exitCode_ne_zero⟩⟩
    rintro ⟨r, hr⟩
    cases hr

/-- The declaration of a model. -/
def toys : Json := .obj [("models", .arr [.obj [("name", .str "Toy"), ("fields", .obj [
  ("label", .obj [("type", .str "string")])])]])]

/-- A view in which the network has a model, and a file has a payload for it. -/
def served : FileView where
  find path := if path = "p.json" then .file ⟨#[123, 125]⟩ else .nothing
  below _ := []
  network := some fun url => if url = "http://a/toys.json" then .ok toys else .error "no answer"

theorem loadFrom_served : Registry.loadFrom served "http://a/toys.json" = Registry.load toys := by
  have hurl : isUrl "http://a/toys.json" = true := by decide +kernel
  rw [Registry.loadFrom, Document.load, if_pos hurl]
  rfl

theorem loadFrom_served_nothing : Registry.loadFrom served "http://b"
    = .error (.unreadable "http://b" (.notFetched "no answer")) := by
  have hurl : isUrl "http://b" = true := by decide +kernel
  rw [Registry.loadFrom, Document.load, if_pos hurl]
  rfl

/-- The payload is read and the model is looked up once the declarations are loaded. -/
theorem runValidate_served :
    ∃ r, Registry.loadFrom served "http://a/toys.json" = .ok r ∧
      Command.runValidate served "http://a/toys.json" "p.json" "Cat" true
        = Command.reportError true (ModelError.unknownModel "Cat").message 2 := by
  have h : ((Registry.load toys).toOption.any fun r => (r.find? "Cat").isNone) = true := by cbv
  obtain ⟨r, hr, hnone⟩ := exists_of_any_toOption h
  have hload := loadFrom_served.trans hr
  have hpath : isUrl "p.json" = false := by decide +kernel
  have hpayload : Document.load served "p.json" = .ok (.obj []) := by
    rw [Document.load, hpath]
    cbv
  have hvalid : r.validate "Cat" (.obj []) = .error (.model (.unknownModel "Cat")) := by
    rw [Registry.validate, Registry.lookup, Option.isNone_iff_eq_none.1 hnone]
    rfl
  refine ⟨r, hload, ?_⟩
  rw [Command.runValidate, Command.withRegistry, hload, Command.orFail, hpayload, Command.orFail,
    hvalid]
  rfl

/-- The model from the network is looked up, and a report says so; else there is none. -/
theorem isReport_validate_iff_served :
    let parser := ArgumentParser.installed
    let response d :=
      (ofArguments parser ["validate", d, "p.json", "--model", "Cat", "--json"]).respond
        parser served
    parser.Lawful ∧ (IsOperand "http://a/toys.json" ∧ IsOperand "http://b" ∧ IsOperand "p.json" ∧
        IsOperand "Cat") ∧
      ((∃ r, Registry.loadFrom served "http://a/toys.json" = .ok r) ∧
        (response "http://a/toys.json").IsReport ∧
        (response "http://a/toys.json").stdout
          = "\x7b\"valid\":false,\"error\":\"unknown model 'Cat'\"\x7d\n") ∧
      ¬(response "http://b").IsReport ∧ (response "http://b").stdout = "" ∧
        (response "http://b").stderr
          = "Error loading declarations: failed to fetch http://b: no answer\n" := by
  intro parser response
  have hlawful : parser.Lawful := ArgumentParser.installed_lawful
  have ha : IsOperand "http://a/toys.json" := by decide
  have hb : IsOperand "http://b" := by decide
  have hp : IsOperand "p.json" := by decide
  have hm : IsOperand "Cat" := by decide
  obtain ⟨r, hload, hrun⟩ := runValidate_served
  have hreport : (response "http://a/toys.json").IsReport :=
    (isReport_validate_iff hlawful served ha hp hm).1.2 ⟨r, hload⟩
  have hsilent : ¬(response "http://b").IsReport := by
    refine (isReport_validate_iff hlawful served hb hp hm).1.not.2 ?_
    rintro ⟨r, hr⟩
    cases loadFrom_served_nothing.symm.trans hr
  have hempty : (response "http://b").stdout = "" :=
    ((isReport_validate_iff hlawful served hb hp hm).2 hsilent).1
  refine ⟨hlawful, ⟨ha, hb, hp, hm⟩, ⟨⟨r, hload⟩, hreport, ?_⟩, hsilent, hempty, ?_⟩
  · rw [show response "http://a/toys.json" = _ from respond_validate hlawful served ha hp hm, hrun]
    decide +kernel
  · rw [show response "http://b" = _ from respond_validate hlawful served hb hp hm,
      Command.runValidate_of_error loadFrom_served_nothing]
    decide +kernel

end Invocation

namespace FileEntry

/-- A response without a file to write is the one that is given. -/
theorem runIn_fst {root : FileEntry} {args : List String} {response : Response}
    (h : (Invocation.ofArguments .installed args).respond .installed root.view = response)
    (ho : response.output = none) : (root.runIn args).1 = response := by
  unfold runIn
  dsimp only
  rw [h, ho]

/-- A directory with a payload, and no declarations. -/
def undeclared : FileEntry := .directory [("p.json", .file "\x7b\x7d".toUTF8)]

theorem not_isReport_validate_undeclared :
    let response :=
      (undeclared.runIn ["validate", "models.json", "p.json", "--model", "A", "--json"]).1
    response.stdout = "" ∧
      response.stderr = "Error loading declarations: file not found: models.json\n" ∧
      response.code = 3 ∧ ¬response.IsReport := by
  have hload : Registry.loadFrom undeclared.view "models.json"
      = .error (.fileNotFound "models.json") := by cbv
  have hrun := Invocation.ofArguments_validate ArgumentParser.installed_lawful (d := "models.json")
    (p := "p.json") (m := "A") (by decide) (by decide) (by decide)
  intro response
  have hresponse : response
      = .failed "Error loading declarations: file not found: models.json" 3 := by
    refine runIn_fst ?_ rfl
    rw [hrun]
    exact Command.runValidate_of_error hload
  rw [hresponse]
  exact ⟨rfl, rfl, rfl, Response.not_isReport_failed⟩

end FileEntry

end FieldMask
