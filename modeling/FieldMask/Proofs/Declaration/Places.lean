import FieldMask.Proofs.Declaration.Order
import FieldMask.Proofs.Json.Distinct
import FieldMask.Proofs.Lint.Loading
import FieldMask.Proofs.Pointer.Decoding
import Mathlib

/-!
# Where declarations are refused

An error of loading tells by its path which part of the document is refused: the declaration of a
model or of a field, or the text of a mask (`load_refused`). The path names every member on the way
to that part as it is. So it reads as the place of the part just if every name on the way is
verbatim: it has no slash and no tilde, and it is a key of an object, for declarations may be
written as arrays too, where their members stand under indices.
-/

namespace FieldMask

/-! ## Told paths -/

/--
A step from a value to a part of it: the label by which a path tells it, and the segment under which
the part stands.
-/
structure Turn where
  label : String
  segment : String

namespace Turn

/-- The step to the part that stands under its own name. -/
def plain (name : String) : Turn := ⟨name, name⟩

/-- The path that tells the steps, with the labels as they are. -/
def path : List Turn → String
  | [] => ""
  | turn :: rest => "/" ++ turn.label ++ path rest

theorem path_fields (segment name : String) (turns : List Turn) :
    path (⟨"fields", segment⟩ :: .plain name :: turns) = "/fields/" ++ name ++ path turns := by
  show "/" ++ "fields" ++ ("/" ++ name ++ path turns) = _
  rw [← String.append_assoc, ← String.append_assoc]
  rfl

theorem path_models (i : Nat) (turns : List Turn) :
    path (.plain "models" :: .plain (Number.intText i) :: turns)
      = Declaration.pathAt i ++ path turns := by
  show "/" ++ "models" ++ ("/" ++ Number.intText i ++ path turns) = _
  rw [← String.append_assoc, ← String.append_assoc]
  rfl

/-- The place to which the steps lead. -/
def place (turns : List Turn) : Pointer := ⟨turns.map (·.segment)⟩

/-- The label is the segment, and is written as it is in the text of a place. -/
def IsVerbatim (turn : Turn) : Prop := turn.label = turn.segment ∧ Pointer.IsPlain turn.label

instance (turn : Turn) : Decidable turn.IsVerbatim := inferInstanceAs (Decidable (_ ∧ _))

/-- What stands between the slashes of a path. -/
theorem splitAt_path (turns : List Turn) :
    splitAt '/' (path turns).toList
      = [] :: turns.flatMap fun turn => splitAt '/' turn.label.toList := by
  have hpath (turn : Turn) (rest : List Turn) :
      (path (turn :: rest)).toList = '/' :: (turn.label.toList ++ (path rest).toList) := by
    simp [path]
  cases turns with
  | nil => rfl
  | cons first rest =>
    rw [hpath, splitAt_cons_self]
    refine congrArg _ ?_
    induction rest generalizing first with
    | nil => simp [path]
    | cons second rest ih =>
      rw [hpath, splitAt_append_cons, ih]
      rfl

/-- A told path reads as the place of the part just if its labels are what the text of it has. -/
theorem ofText?_path_iff {turns : List Turn} :
    Pointer.ofText? (path turns) = some (place turns) ↔
      ∀ turn ∈ turns, turn.label = Pointer.escape turn.segment := by
  have hplace : splitAt '/' (place turns).text.toList
      = [] :: turns.map fun turn => (Pointer.escape turn.segment).toList := by
    rw [Pointer.text, Pointer.splitAt_foldl_join, place, List.map_map]
    rfl
  rw [Pointer.ofText?_eq_some_iff, eq_comm, ← String.toList_inj, ← (splitAt_injective '/').eq_iff,
    splitAt_path, hplace, List.cons_inj_right,
    flatMap_eq_map_iff fun turn : Turn => splitAt_ne_nil '/' turn.label.toList]
  refine forall₂_congr fun turn _ => ⟨fun h => ?_, fun h => ?_⟩
  · exact String.toList_inj.1 (eq_of_splitAt h).2.symm
  · rw [h, splitAt_of_not_mem (Pointer.slash_not_mem_escape _)]

/-- The label is the segment, or it is plain. -/
def Tells (turn : Turn) : Prop := turn.label = turn.segment ∨ Pointer.IsPlain turn.label

theorem tells_plain (name : String) : (plain name).Tells := .inl rfl

theorem Tells.label_eq_escape_iff {turn : Turn} (h : turn.Tells) :
    turn.label = Pointer.escape turn.segment ↔ turn.IsVerbatim := by
  constructor
  · intro hlabel
    have hsegment : Pointer.IsPlain turn.segment := by
      rcases h with h | h
      · exact Pointer.escape_eq_self_iff.1 (hlabel.symm.trans h)
      · exact Pointer.isPlain_of_tilde_not_mem (hlabel ▸ h.1)
    rw [Pointer.escape_eq_self_iff.2 hsegment] at hlabel
    exact ⟨hlabel, hlabel ▸ hsegment⟩
  · rintro ⟨hlabel, hplain⟩
    rw [← hlabel, Pointer.escape_eq_self_iff.2 hplain]

end Turn

/-! ## Members of records -/

namespace RecordMember

variable {σ γ : Type}

/--
A component of the record comes to be what a value of the named member gives, and is left as it is
by every other member.
-/
def Gives (m : RecordMember σ) (name : String) (g : σ → γ) (Q : Json → γ → Prop) : Prop :=
  ∀ s v s', m.store s v = .ok s' → (m.name ≠ name → g s' = g s) ∧ (m.name = name → Q v (g s'))

end RecordMember

namespace Record

variable {σ γ α : Type} {r : Record σ} {name : String} {g : σ → γ} {Q : Json → γ → Prop}

/-- The member of a record that is written as a value, with the segment under which it stands. -/
inductive MemberAt (r : Record σ) (name : String) : Json → String → Json → Prop
  | named {members : Members} {v : Json} (h : members.lookup name = some v) :
      MemberAt r name (.obj members) name v
  | counted {items : List Json} {i : Nat} {v : Json} (hk : r.memberNames[i]? = some name)
      (hi : items[i]? = some v) : MemberAt r name (.arr items) (Number.intText i) v

theorem MemberAt.refer? {value v : Json} {segment : String} (h : r.MemberAt name value segment v) :
    value.refer? segment = some v := by
  cases h with
  | named h => exact h
  | counted _ hi => rw [Json.refer?_item, hi]

theorem MemberAt.lookup_eq {members : Members} {v : Json} {segment : String}
    (h : r.MemberAt name (.obj members) segment v) :
    segment = name ∧ members.lookup name = some v := by
  cases h with
  | named h => exact ⟨rfl, h⟩

theorem MemberAt.distinct {value v : Json} {segment : String} (h : r.MemberAt name value segment v)
    (hd : value.Distinct) : v.Distinct := by
  cases h with
  | named h => exact (Json.distinct_obj_iff.1 hd).2 _ (Keyed.mem_of_lookup h)
  | counted _ hi => exact Json.distinct_arr_iff.1 hd _ (List.mem_of_getElem? hi)

theorem gives_of_keeps {other : String} {read : Json → Except RecordError α} {put : σ → α → σ}
    (hne : other ≠ name) (h : ∀ s a, g (put s a) = g s) :
    (member other read put).Gives name g Q := by
  intro s v s' hs
  obtain ⟨a, -, hs⟩ := bind_eq_ok.1 hs
  obtain rfl := pure_eq_ok.1 hs
  exact ⟨fun _ => h s a, fun heq => absurd heq hne⟩

theorem gives_of_reads {read : Json → Except RecordError α} {put : σ → α → σ}
    (h : ∀ s v a, read v = .ok a → Q v (g (put s a))) : (member name read put).Gives name g Q := by
  intro s v s' hs
  obtain ⟨a, ha, hs⟩ := bind_eq_ok.1 hs
  obtain rfl := pure_eq_ok.1 hs
  exact ⟨fun hne => absurd rfl hne, fun _ => h s v a ha⟩

theorem gives_needed {other : String} {read : Json → Except RecordError α} {put : σ → α → σ}
    (h : (member other read put).Gives name g Q) : (neededMember other read put).Gives name g Q :=
  h

/-- What stores the written members of an object, one after the other. -/
def storeWritten (r : Record σ) (s : σ) (e : String × Json) : Except RecordError σ :=
  match r.members.find? (·.name == e.1) with
  | some m => m.store s e.2
  | none => .error (.unknownMember e.1 r.memberNames)

theorem storeWritten_eq_ok {s s' : σ} {e : String × Json} (h : r.storeWritten s e = .ok s') :
    ∃ m ∈ r.members, m.name = e.1 ∧ m.store s e.2 = .ok s' := by
  unfold storeWritten at h
  split at h
  · rename_i m hm
    exact ⟨m, List.mem_of_find?_eq_some hm,
      eq_of_beq (List.find?_some (p := fun m : RecordMember σ => m.name == e.1) hm), h⟩
  · cases h

theorem foldlM_of_read_obj {start s : σ} {written : Members}
    (h : r.read start (.obj written) = .ok s) : written.foldlM r.storeWritten start = .ok s := by
  obtain ⟨s', hs, h⟩ := bind_eq_ok.1 h
  obtain rfl : s' = s := by
    split at h
    · cases h
    · exact pure_eq_ok.1 h
  exact hs

theorem foldlM_of_read_arr {start s : σ} {items : List Json}
    (h : r.read start (.arr items) = .ok s) :
    (r.members.zip items).foldlM (fun s e => e.1.store s e.2) start = .ok s := by
  obtain ⟨s', hs, h⟩ := bind_eq_ok.1 h
  obtain rfl : s' = s := by
    split at h
    · cases h
    · split at h
      · cases h
      · exact pure_eq_ok.1 h
  exact hs

/-- A component of a record that is read is what it was before, or what its member gives. -/
theorem eq_or_memberAt_of_read (hg : ∀ m ∈ r.members, m.Gives name g Q) {start s : σ} {value : Json}
    (hd : value.Distinct) (h : r.read start value = .ok s) :
    g s = g start ∨ ∃ segment v, r.MemberAt name value segment v ∧ Q v (g s) := by
  cases value with
  | obj written =>
    rcases exists_step_of_change g (foldlM_of_read_obj h) with
      hkept | ⟨⟨key, v⟩, hmem, s₁, s₂, hstore, hne, heq⟩
    · exact .inl hkept
    · obtain ⟨m, hm, rfl, hstore⟩ := storeWritten_eq_ok hstore
      obtain ⟨hkeeps, hgives⟩ := hg m hm _ _ _ hstore
      have hname : m.name = name := not_not.1 fun hname => hne (hkeeps hname)
      have hlookup := Keyed.lookup_of_mem (Json.distinct_obj_iff.1 hd).1 (hname ▸ hmem)
      exact .inr ⟨name, v, .named hlookup, heq ▸ hgives hname⟩
  | arr items =>
    rcases exists_step_of_change g (foldlM_of_read_arr h) with
      hkept | ⟨⟨m, v⟩, hmem, s₁, s₂, hstore, hne, heq⟩
    · exact .inl hkept
    · obtain ⟨hkeeps, hgives⟩ := hg m (List.of_mem_zip hmem).1 _ _ _ hstore
      have hname : m.name = name := not_not.1 fun hname => hne (hkeeps hname)
      obtain ⟨i, hi⟩ := List.mem_iff_getElem?.1 hmem
      obtain ⟨hm, hitem⟩ := List.getElem?_zip_eq_some.1 hi
      have hk : r.memberNames[i]? = some name := by
        rw [memberNames, List.getElem?_map, hm, Option.map_some, hname]
      exact .inr ⟨_, v, .counted hk hitem, heq ▸ hgives hname⟩
  | _ => cases h

/-- A component of a record comes to be what is written for its member gives. -/
theorem gives_of_read_obj (hg : ∀ m ∈ r.members, m.Gives name g Q) {start s : σ} {written : Members}
    (hn : (Keyed.keys written).Nodup) (h : r.read start (.obj written) = .ok s) {v : Json}
    (hv : written.lookup name = some v) : Q v (g s) := by
  obtain ⟨front, back, rfl⟩ := List.append_of_mem (Keyed.mem_of_lookup hv)
  obtain ⟨s₁, -, h⟩ := bind_eq_ok.1 (List.foldlM_append.symm.trans (foldlM_of_read_obj h))
  obtain ⟨s₂, hstore, h⟩ := bind_eq_ok.1 (List.foldlM_cons.symm.trans h)
  obtain ⟨m, hm, hname, hstore⟩ := storeWritten_eq_ok hstore
  have hgives := (hg m hm _ _ _ hstore).2 hname
  -- nothing behind it is written under its name
  rcases exists_step_of_change g h with hkept | ⟨e, hmem, s₃, s₄, hstore', hne, -⟩
  · exact hkept ▸ hgives
  · obtain ⟨m', hm', hname', hstore'⟩ := storeWritten_eq_ok hstore'
    have hother : e.1 = name :=
      not_not.1 fun hother => hne ((hg m' hm' _ _ _ hstore').1 (hname' ▸ hother))
    rw [Keyed.keys, List.map_append] at hn
    have hnew : name ∉ Keyed.keys back := (List.nodup_cons.1 hn.of_append_right).1
    have hback := Keyed.mem_keys_of_mem hmem
    rw [hother] at hback
    exact absurd hback hnew

end Record

/-! ## Parts of declarations -/

/-- What an error of a declaration can be about. -/
inductive Part
  | model
  | field
  | mask

/-- The part of the declaration of a field, behind the steps that lead there. -/
inductive FieldPart : Json → Part → List Turn → Json → Prop
  | field {value : Json} : FieldPart value .field [] value
  | mask {value text : Json} {segment : String}
      (h : FieldDeclaration.record.MemberAt "mask" value segment text) :
      FieldPart value .mask [⟨"mask", segment⟩] text
  | items {value items v : Json} {segment : String} {part : Part} {turns : List Turn}
      (h : FieldDeclaration.record.MemberAt "items" value segment items)
      (hp : FieldPart items part turns v) : FieldPart value part (⟨"items", segment⟩ :: turns) v

/-- The part of the declaration of a model, behind the steps that lead there. -/
inductive ModelPart : Json → Part → List Turn → Json → Prop
  | model {value : Json} : ModelPart value .model [] value
  | mask {value text : Json} {segment : String}
      (h : ModelDeclaration.record.MemberAt "mask" value segment text) :
      ModelPart value .mask [⟨"mask", segment⟩] text
  | field {value fields x v : Json} {segment name : String} {part : Part} {turns : List Turn}
      (h : ModelDeclaration.record.MemberAt "fields" value segment fields)
      (hx : fields.get? name = some x) (hp : FieldPart x part turns v) :
      ModelPart value part (⟨"fields", segment⟩ :: .plain name :: turns) v

/-- The part of a document that declares models, behind the steps that lead there. -/
inductive DocumentPart : Json → Part → List Turn → Json → Prop
  | model {document value v : Json} {values : List Json} {i : Nat} {part : Part}
      {turns : List Turn} (h : document.get? "models" = some (.arr values))
      (hi : values[i]? = some value) (hp : ModelPart value part turns v) :
      DocumentPart document part (.plain "models" :: .plain (Number.intText i) :: turns) v

theorem refer?_of_get? {value v : Json} {key : String} (h : value.get? key = some v) :
    value.refer? key = some v := by
  cases value with
  | obj members => exact h
  | _ => cases h

theorem resolve?_place_cons {value x : Json} (turn : Turn) (turns : List Turn)
    (h : value.refer? turn.segment = some x) :
    value.resolve? (Turn.place (turn :: turns)) = x.resolve? (Turn.place turns) := by
  rw [Turn.place, List.map_cons, Json.resolve?_cons, h]
  rfl

theorem resolve?_place_plain {value x : Json} {name : String} (turns : List Turn)
    (h : value.refer? name = some x) :
    value.resolve? (Turn.place (.plain name :: turns)) = x.resolve? (Turn.place turns) :=
  resolve?_place_cons (.plain name) turns h

theorem FieldPart.resolve? {value v : Json} {part : Part} {turns : List Turn}
    (h : FieldPart value part turns v) : value.resolve? (Turn.place turns) = some v := by
  induction h with
  | field => rfl
  | mask h => exact resolve?_place_cons _ [] h.refer?
  | items h _ ih => exact (resolve?_place_cons _ _ h.refer?).trans ih

theorem ModelPart.resolve? {value v : Json} {part : Part} {turns : List Turn}
    (h : ModelPart value part turns v) : value.resolve? (Turn.place turns) = some v := by
  cases h with
  | model => rfl
  | mask h => exact resolve?_place_cons _ [] h.refer?
  | field h hx hp =>
    rw [resolve?_place_cons _ _ h.refer?, resolve?_place_plain _ (refer?_of_get? hx), hp.resolve?]

/-- The steps lead to the part. -/
theorem DocumentPart.resolve? {document v : Json} {part : Part} {turns : List Turn}
    (h : DocumentPart document part turns v) : document.resolve? (Turn.place turns) = some v := by
  cases h with
  | model h hi hp =>
    rw [resolve?_place_plain _ (refer?_of_get? h),
      resolve?_place_plain _ ((Json.refer?_item _).trans hi), hp.resolve?]

theorem isPlain_mask : Pointer.IsPlain "mask" := by decide

theorem isPlain_items : Pointer.IsPlain "items" := by decide

theorem isPlain_fields : Pointer.IsPlain "fields" := by decide

theorem FieldPart.tells {value v : Json} {part : Part} {turns : List Turn}
    (h : FieldPart value part turns v) : ∀ turn ∈ turns, turn.Tells := by
  induction h with
  | field => exact List.forall_mem_nil _
  | mask _ => exact List.forall_mem_singleton.2 (.inr isPlain_mask)
  | items _ _ ih => exact List.forall_mem_cons.2 ⟨.inr isPlain_items, ih⟩

theorem ModelPart.tells {value v : Json} {part : Part} {turns : List Turn}
    (h : ModelPart value part turns v) : ∀ turn ∈ turns, turn.Tells := by
  cases h with
  | model => exact List.forall_mem_nil _
  | mask _ => exact List.forall_mem_singleton.2 (.inr isPlain_mask)
  | field _ _ hp =>
    exact List.forall_mem_cons.2
      ⟨.inr isPlain_fields, List.forall_mem_cons.2 ⟨Turn.tells_plain _, hp.tells⟩⟩

/-- The path of a part reads as its place just if every label on the way is verbatim. -/
theorem DocumentPart.ofText?_path_iff {document v : Json} {part : Part} {turns : List Turn}
    (h : DocumentPart document part turns v) :
    Pointer.ofText? (Turn.path turns) = some (Turn.place turns)
      ↔ ∀ turn ∈ turns, turn.IsVerbatim := by
  have htells : ∀ turn ∈ turns, turn.Tells := by
    cases h with
    | model _ _ hp =>
      exact List.forall_mem_cons.2
        ⟨Turn.tells_plain _, List.forall_mem_cons.2 ⟨Turn.tells_plain _, hp.tells⟩⟩
  rw [Turn.ofText?_path_iff]
  exact forall₂_congr fun turn hturn => (htells turn hturn).label_eq_escape_iff

/-! ## Reading -/

/-- The path in the error. -/
def DeclarationError.path : DeclarationError → String
  | .invalid path _ => path
  | .invalidMask path _ => path

/-- The part is what the error is about: a declaration that is refused, or a text that is no mask.
-/
inductive DeclarationError.IsAbout : DeclarationError → Part → Json → Prop
  | model {path : String} {fault : DeclarationFault} {v : Json}
      (h : Declaration.read path v = .error (.invalid path fault)) :
      IsAbout (.invalid path fault) .model v
  | field {path : String} {fault : DeclarationFault} {v : Json}
      (h : Declaration.readField path v = .error (.invalid path fault)) :
      IsAbout (.invalid path fault) .field v
  | mask {path text : String} {error : MaskParseError} (h : Mask.parse text = .error error) :
      IsAbout (.invalidMask path error) .mask (.str text)

theorem eq_str_of_readOptional {v : Json} {text : String}
    (h : v.readOptional Json.readText = .ok (some text)) : v = .str text := by
  cases v with
  | str s =>
    obtain rfl : s = text := Option.some.inj (Except.ok.inj h)
    rfl
  | _ => cases h

namespace FieldDeclaration

/-- The mask of a field that is declared is written as a text. -/
theorem exists_mask_of_read {value : Json} {d : FieldDeclaration} {text : String}
    (hd : value.Distinct) (h : record.read {} value = .ok d) (hm : d.mask = some text) :
    ∃ segment, record.MemberAt "mask" value segment (.str text) := by
  have hg : ∀ m ∈ record.members, m.Gives "mask" (·.mask)
      fun v mask => ∀ text, mask = some text → v = .str text := by
    refine List.forall_mem_cons.2
      ⟨Record.gives_needed (Record.gives_of_keeps (by decide) fun _ _ => rfl), ?_⟩
    repeat refine List.forall_mem_cons.2 ⟨Record.gives_of_keeps (by decide) fun _ _ => rfl, ?_⟩
    refine List.forall_mem_cons.2 ⟨Record.gives_of_reads fun _ v a ha text htext => ?_, ?_⟩
    · exact eq_str_of_readOptional (ha.trans (congrArg _ htext))
    · exact List.forall_mem_nil _
  rcases Record.eq_or_memberAt_of_read hg hd h with hnone | ⟨segment, v, hmember, hv⟩
  · cases hm.symm.trans hnone
  · exact ⟨segment, hv text hm ▸ hmember⟩

theorem exists_memberAt_of_itemsOf? {value items : Json} (h : itemsOf? value = some items) :
    ∃ segment, record.MemberAt "items" value segment items := by
  unfold itemsOf? at h
  split at h
  · exact ⟨"items", .named (Option.filter_eq_some_iff.1 h).1⟩
  · obtain rfl := Option.some.inj (Option.filter_eq_some_iff.1 h).1
    exact ⟨_, .counted (i := 1) rfl rfl⟩
  · cases h

end FieldDeclaration

namespace ModelDeclaration

/-- The mask of a model that is declared is written as a text. -/
theorem exists_mask_of_read {value : Json} {d : ModelDeclaration} {text : String}
    (hd : value.Distinct) (h : record.read {} value = .ok d) (hm : d.mask = some text) :
    ∃ segment, record.MemberAt "mask" value segment (.str text) := by
  have hg : ∀ m ∈ record.members, m.Gives "mask" (·.mask)
      fun v mask => ∀ text, mask = some text → v = .str text := by
    refine List.forall_mem_cons.2
      ⟨Record.gives_needed (Record.gives_of_keeps (by decide) fun _ _ => rfl), ?_⟩
    refine List.forall_mem_cons.2 ⟨Record.gives_of_keeps (by decide) fun _ _ => rfl, ?_⟩
    refine List.forall_mem_cons.2 ⟨Record.gives_of_reads fun _ v a ha text htext => ?_, ?_⟩
    · exact eq_str_of_readOptional (ha.trans (congrArg _ htext))
    · repeat refine List.forall_mem_cons.2 ⟨Record.gives_of_keeps (by decide) fun _ _ => rfl, ?_⟩
      exact List.forall_mem_nil _
  rcases Record.eq_or_memberAt_of_read hg hd h with hnone | ⟨segment, v, hmember, hv⟩
  · cases hm.symm.trans hnone
  · exact ⟨segment, hv text hm ▸ hmember⟩

theorem gives_fields : ∀ m ∈ record.members,
    m.Gives "fields" (·.fields) fun v fields => v = .obj fields := by
  refine List.forall_mem_cons.2
    ⟨Record.gives_needed (Record.gives_of_keeps (by decide) fun _ _ => rfl), ?_⟩
  repeat refine List.forall_mem_cons.2 ⟨Record.gives_of_keeps (by decide) fun _ _ => rfl, ?_⟩
  refine List.forall_mem_cons.2 ⟨Record.gives_of_reads fun _ v fields hv => ?_, ?_⟩
  · cases v with
    | obj members => exact congrArg _ (Except.ok.inj hv)
    | _ => cases hv
  · exact List.forall_mem_nil _

/-- The fields of a model that is declared are written as an object, or there are none. -/
theorem exists_fields_of_read {value : Json} {d : ModelDeclaration} (hd : value.Distinct)
    (h : record.read {} value = .ok d) :
    d.fields = [] ∨ ∃ segment, record.MemberAt "fields" value segment (.obj d.fields) := by
  rcases Record.eq_or_memberAt_of_read gives_fields hd h with hnone | ⟨segment, v, hmember, rfl⟩
  · exact .inl hnone
  · exact .inr ⟨segment, hmember⟩

end ModelDeclaration

namespace Declaration

variable {path : String} {value : Json} {e : DeclarationError}

theorem readMask?_eq_error {text : Option String} (h : readMask? path text = .error e) :
    ∃ written error, text = some written ∧ Mask.parse written = .error error ∧
      .invalidMask path error = e := by
  cases text with
  | none => cases h
  | some written =>
    obtain h | ⟨_, -, h⟩ := bind_eq_error.1 h
    · obtain ⟨error, hparse, he⟩ := mapError_eq_error.1 h
      exact ⟨written, error, rfl, hparse, he⟩
    · cases h

theorem shapeOf_eq_error {d : FieldDeclaration} (h : shapeOf path d = .error e) :
    ∃ fault, .invalid path fault = e := by
  unfold shapeOf at h
  split at h
  · split at h
    · cases h
    · exact ⟨_, Except.error.inj h⟩
  · split at h
    · split at h
      · exact ⟨_, Except.error.inj h⟩
      · cases h
    · split at h
      · cases h
      · exact ⟨_, Except.error.inj h⟩

/-- The error is about a part of the field's declaration, and its path goes on to that part. -/
def BlamesField (path : String) (value : Json) (e : DeclarationError) : Prop :=
  ∃ part turns v, FieldPart value part turns v ∧ e.IsAbout part v ∧ e.path = path ++ Turn.path turns

theorem blamesField_self {fault : DeclarationFault}
    (h : readField path value = .error (.invalid path fault)) :
    BlamesField path value (.invalid path fault) :=
  ⟨.field, [], value, .field, .field h, String.append_empty.symm⟩

theorem blamesField_mask {d : FieldDeclaration} (hd : value.Distinct)
    (hread : FieldDeclaration.record.read {} value = .ok d)
    (h : readMask? (path ++ "/mask") d.mask = .error e) : BlamesField path value e := by
  obtain ⟨text, error, hm, hparse, rfl⟩ := readMask?_eq_error h
  obtain ⟨segment, hmember⟩ := FieldDeclaration.exists_mask_of_read hd hread hm
  exact ⟨.mask, [⟨"mask", segment⟩], _, .mask hmember, .mask hparse, rfl⟩

theorem BlamesField.items {x : Json} {segment : String}
    (hmember : FieldDeclaration.record.MemberAt "items" value segment x)
    (h : BlamesField (path ++ "/items") x e) : BlamesField path value e := by
  obtain ⟨part, turns, v, hpart, habout, hpath⟩ := h
  refine ⟨part, ⟨"items", segment⟩ :: turns, v, .items hmember hpart, habout, ?_⟩
  rw [hpath, String.append_assoc]
  rfl

/-- The declaration of a field that is refused has a part that the error is about. -/
theorem blames_of_readField {path : String} {value : Json} (hd : value.Distinct)
    (h : readField path value = .error e) : BlamesField path value e := by
  have hself : ∀ fault, .invalid path fault = e → BlamesField path value e := by
    rintro fault rfl
    exact blamesField_self h
  have hread := h
  rw [readField] at hread
  rcases bind_eq_error.1 hread with hrecord | ⟨d, hrecord, hread⟩
  · obtain ⟨error, -, he⟩ := mapError_eq_error.1 hrecord
    exact hself _ he
  · have hrecord := mapError_eq_ok.1 hrecord
    dsimp only at hread
    split at hread
    · split at hread
      · rename_i items hitems
        rcases bind_eq_error.1 hread with hitem | ⟨_, -, hread⟩
        · obtain ⟨segment, hmember⟩ := FieldDeclaration.exists_memberAt_of_itemsOf? hitems
          exact (blames_of_readField (hmember.distinct hd) hitem).items hmember
        · obtain hread | ⟨_, -, hread⟩ := bind_eq_error.1 hread
          · cases hread
          · obtain hmask | ⟨_, -, hread⟩ := bind_eq_error.1 hread
            · exact blamesField_mask hd hrecord hmask
            · cases hread
      · exact hself _ (Except.error.inj hread)
    · rcases bind_eq_error.1 hread with hshape | ⟨_, -, hread⟩
      · obtain ⟨fault, he⟩ := shapeOf_eq_error hshape
        exact hself fault he
      · obtain hmask | ⟨_, -, hread⟩ := bind_eq_error.1 hread
        · exact blamesField_mask hd hrecord hmask
        · cases hread
termination_by sizeOf value
decreasing_by exact FieldDeclaration.sizeOf_itemsOf?_lt ‹_›

/-- The error is about a part of the model's declaration, and its path goes on to that part. -/
def BlamesModel (path : String) (value : Json) (e : DeclarationError) : Prop :=
  ∃ part turns v, ModelPart value part turns v ∧ e.IsAbout part v ∧ e.path = path ++ Turn.path turns

theorem blamesModel_mask {d : ModelDeclaration} (hd : value.Distinct)
    (hread : ModelDeclaration.record.read {} value = .ok d)
    (h : readMask? (path ++ "/mask") d.mask = .error e) : BlamesModel path value e := by
  obtain ⟨text, error, hm, hparse, rfl⟩ := readMask?_eq_error h
  obtain ⟨segment, hmember⟩ := ModelDeclaration.exists_mask_of_read hd hread hm
  exact ⟨.mask, [⟨"mask", segment⟩], _, .mask hmember, .mask hparse, rfl⟩

theorem BlamesField.field {name segment : String} {fields x : Json}
    (hmember : ModelDeclaration.record.MemberAt "fields" value segment fields)
    (hx : fields.get? name = some x) (h : BlamesField (path ++ "/fields/" ++ name) x e) :
    BlamesModel path value e := by
  obtain ⟨part, turns, v, hpart, habout, hpath⟩ := h
  refine ⟨part, ⟨"fields", segment⟩ :: .plain name :: turns, v, .field hmember hx hpart, habout, ?_⟩
  rw [hpath, Turn.path_fields, ← String.append_assoc, ← String.append_assoc]

/-- The declaration of a model that is refused has a part that the error is about. -/
theorem blames_of_read (hd : value.Distinct) (h : read path value = .error e) :
    BlamesModel path value e := by
  have hself : ∀ fault, .invalid path fault = e → BlamesModel path value e := by
    rintro fault rfl
    exact ⟨.model, [], value, .model, .model h, String.append_empty.symm⟩
  have hread := h
  rcases bind_eq_error.1 hread with hrecord | ⟨d, hrecord, hread⟩
  · obtain ⟨error, -, he⟩ := mapError_eq_error.1 hrecord
    exact hself _ he
  · have hrecord := mapError_eq_ok.1 hrecord
    dsimp only at hread
    split at hread
    · exact hself _ (Except.error.inj hread)
    · rcases bind_eq_error.1 hread with hmask | ⟨mask, -, hread⟩
      · exact blamesModel_mask hd hrecord hmask
      · obtain hfields | ⟨_, -, hread⟩ := bind_eq_error.1 hread
        · obtain ⟨⟨name, x⟩, hx, hfield⟩ := exists_mem_of_mapM_eq_error hfields
          obtain hfield | ⟨_, -, hfield⟩ := bind_eq_error.1 hfield
          · rcases ModelDeclaration.exists_fields_of_read hd hrecord with hnone | ⟨segment, hmember⟩
            · rw [hnone] at hx
              cases hx
            · have hobj := Json.distinct_obj_iff.1 (hmember.distinct hd)
              have hblames := blames_of_readField (hobj.2 _ hx) hfield
              exact hblames.field hmember (Keyed.lookup_of_mem hobj.1 hx)
          · cases hfield
        · cases hread

theorem shapeOf_ne_list {d : FieldDeclaration} {items : Field} {least most : Option UInt64}
    {unique : Bool} : shapeOf path d ≠ .ok (.list items least most unique) := by
  intro h
  unfold shapeOf at h
  split at h
  · split at h <;> cases h
  · split at h
    · split at h <;> cases h
    · split at h <;> cases h

/-- The items of a list are read from what is written for them. -/
theorem items_of_readField {field items : Field} {least most : Option UInt64} {unique : Bool}
    (h : readField path value = .ok field) (hs : field.shape = .list items least most unique) :
    ∃ x, FieldDeclaration.itemsOf? value = some x ∧ readField (path ++ "/items") x = .ok items := by
  rw [readField] at h
  obtain ⟨d, -, h⟩ := bind_eq_ok.1 h
  dsimp only at h
  split at h
  · split at h
    · rename_i x hx
      obtain ⟨items', hitems, h⟩ := bind_eq_ok.1 h
      obtain ⟨shape, hshape, h⟩ := bind_eq_ok.1 h
      obtain ⟨mask, -, h⟩ := bind_eq_ok.1 h
      obtain rfl := pure_eq_ok.1 hshape
      obtain rfl := pure_eq_ok.1 h
      cases hs
      exact ⟨x, hx, hitems⟩
    · cases h
  · obtain ⟨shape, hshape, h⟩ := bind_eq_ok.1 h
    obtain ⟨mask, -, h⟩ := bind_eq_ok.1 h
    obtain rfl := pure_eq_ok.1 h
    exact absurd (hshape.trans (congrArg _ hs)) shapeOf_ne_list

/-- The fields of a declaration are read from those of its record, under the same names. -/
theorem fields_of_read {d : Declaration} (h : read path value = .ok d) :
    ∃ declared : ModelDeclaration, ModelDeclaration.record.read {} value = .ok declared ∧
      List.Forall₂ (fun e e' => e.1 = e'.1 ∧ readField (path ++ "/fields/" ++ e.1) e.2 = .ok e'.2)
        declared.fields d.fields := by
  obtain ⟨declared, hrecord, h⟩ := bind_eq_ok.1 h
  dsimp only at h
  split at h
  · cases h
  · obtain ⟨mask, -, h⟩ := bind_eq_ok.1 h
    obtain ⟨fields, hfields, h⟩ := bind_eq_ok.1 h
    obtain rfl := pure_eq_ok.1 h
    refine ⟨declared, mapError_eq_ok.1 hrecord, (mapM_eq_ok.1 hfields).imp fun e e' hread => ?_⟩
    obtain ⟨field, hfield, hpair⟩ := bind_eq_ok.1 hread
    obtain rfl := pure_eq_ok.1 hpair
    exact ⟨rfl, hfield⟩

/-- A field that is declared is read from a member of the fields of its model. -/
theorem exists_written_of_read {d : Declaration} (hd : value.Distinct) (h : read path value = .ok d)
    {e : String × Field} (he : e ∈ d.fields) :
    ∃ segment fields x, ModelDeclaration.record.MemberAt "fields" value segment fields ∧
      fields.get? e.1 = some x ∧ readField (path ++ "/fields/" ++ e.1) x = .ok e.2 := by
  obtain ⟨declared, hrecord, hfields⟩ := fields_of_read h
  obtain ⟨⟨name, x⟩, hx, rfl, hread⟩ := exists_left_of_mem hfields he
  rcases ModelDeclaration.exists_fields_of_read hd hrecord with hnone | ⟨segment, hmember⟩
  · rw [hnone] at hx
    cases hx
  · have hlookup := Keyed.lookup_of_mem (Json.distinct_obj_iff.1 (hmember.distinct hd)).1 hx
    exact ⟨segment, _, x, hmember, hlookup, hread⟩

/-- A field that is not declared is not written among the fields of its model. -/
theorem refer?_of_not_declared {d : Declaration} {members : Members} {fields : Json}
    (hd : (Json.obj members).Distinct) (h : read path (.obj members) = .ok d) {name : String}
    (hname : name ∉ Keyed.keys d.fields) (hf : members.lookup "fields" = some fields) :
    fields.refer? name = none := by
  obtain ⟨declared, hrecord, hfields⟩ := fields_of_read h
  have hobj := Record.gives_of_read_obj ModelDeclaration.gives_fields
    (Json.distinct_obj_iff.1 hd).1 hrecord hf
  rw [hobj]
  refine Keyed.lookup_eq_none_iff.2 fun hwritten => hname ?_
  obtain ⟨e, he, rfl⟩ := List.mem_map.1 hwritten
  obtain ⟨e', he', heq, -⟩ := exists_right_of_mem hfields he
  exact heq ▸ Keyed.mem_keys_of_mem he'

end Declaration

/-! ## Loading -/

namespace Registry

variable {document : Json} {e : DeclarationError}

theorem read_of_declare {r : Registry} {path : String} {value : Json}
    (h : r.declare (path, value) = .error (.declaration e)) :
    Declaration.read path value = .error e := by
  rcases bind_eq_error.1 h with h | ⟨d, -, h⟩
  · obtain ⟨e', hread, he⟩ := mapError_eq_error.1 h
    rw [hread, RegistryError.declaration.inj he]
  · obtain ⟨_, -, he⟩ := mapError_eq_error.1 h
    cases he

/-- A document that declares models is refused for one of its declarations. -/
theorem exists_read_of_load (h : load document = .error (.declaration e))
    (hp : e.path ≠ "/models") : ∃ values i value, document.get? "models" = some (.arr values) ∧
      values[i]? = some value ∧ Declaration.read (Declaration.pathAt i) value = .error e := by
  obtain ⟨error, hof, herror⟩ := mapError_eq_error.1 h
  obtain rfl : error = .declaration e := by
    cases error with
    | declaration e' => rw [LoadError.declaration.inj herror]
    | model e' => cases herror
  rw [ofDocument_eq] at hof
  rcases bind_eq_error.1 hof with hnone | ⟨paired, hpaired, hof⟩
  · obtain ⟨e', hvalues, he⟩ := mapError_eq_error.1 hnone
    obtain rfl := RegistryError.declaration.inj he
    exact absurd (congrArg DeclarationError.path (Lint.valuesOf_eq_error hvalues)) hp
  · obtain ⟨values, hvalues, rfl⟩ := Declaration.valuesOf_eq_ok.1 (mapError_eq_ok.1 hpaired)
    rcases bind_eq_error.1 hof with hdeclare | ⟨r, -, hof⟩
    · obtain ⟨front, a, back, r, heq, -, hstep⟩ := exists_of_foldlM_eq_error hdeclare
      have hmem := heq ▸ List.mem_append_right front List.mem_cons_self
      obtain ⟨⟨value, i⟩, hi, rfl⟩ := List.mem_map.1 hmem
      exact ⟨values, i, value, hvalues, List.mk_mem_zipIdx_iff_getElem?.1 hi, read_of_declare hstep⟩
    · obtain hcheck | ⟨_, -, hof⟩ := bind_eq_error.1 hof
      · obtain ⟨_, -, he⟩ := mapError_eq_error.1 hcheck
        cases he
      · cases hof

/--
**A document that is refused is refused for one of its parts**, at the place to which the steps that
the path tells lead: a declaration that cannot be read, or the text of a mask that is none. The path
reads as that place just if the labels of all steps are verbatim.
-/
theorem load_refused (hd : document.Distinct) (h : load document = .error (.declaration e))
    (hp : e.path ≠ "/models") :
    ∃ part turns v, DocumentPart document part turns v ∧ e.IsAbout part v ∧
      e.path = Turn.path turns ∧ document.resolve? (Turn.place turns) = some v ∧
      (Pointer.ofText? e.path = some (Turn.place turns) ↔ ∀ turn ∈ turns, turn.IsVerbatim) := by
  obtain ⟨values, i, value, hvalues, hi, hread⟩ := exists_read_of_load h hp
  have hvalue : value.Distinct := by
    have hmodels : (Json.arr values).Distinct := Json.Distinct.get? hd hvalues
    exact Json.distinct_arr_iff.1 hmodels _ (List.mem_of_getElem? hi)
  obtain ⟨part, turns, v, hpart, habout, hpath⟩ := Declaration.blames_of_read hvalue hread
  have hdocument : DocumentPart document part _ v := .model hvalues hi hpart
  rw [hpath, ← Turn.path_models]
  exact ⟨part, _, v, hdocument, habout, rfl, hdocument.resolve?, hdocument.ofText?_path_iff⟩

/-- The items of a list that are of no type are refused at a place that the path reads as. -/
theorem load_refused_items :
    let items := declared "zip" []
    let document : Json := .obj [("models", .arr [.obj [("name", .str "Cat"),
      ("fields", .obj [("toys", declared "list" [("items", items)])])]])]
    let e : DeclarationError := .invalid "/models/0/fields/toys/items" (.unknownType "zip")
    let turns : List FieldMask.Turn := ["models", "0", "fields", "toys", "items"].map .plain
    document.Distinct ∧ load document = .error (.declaration e) ∧ e.path ≠ "/models" ∧
      DocumentPart document .field turns items ∧ e.IsAbout .field items ∧
      e.path = Turn.path turns ∧ document.resolve? (Turn.place turns) = some items ∧
      Pointer.ofText? e.path = some (Turn.place turns) := by
  intro items document e turns
  have hd : document.Distinct := by
    simp [document, items, declared, Json.Distinct, Json.DistinctItems, Json.DistinctMembers]
  have h : load document = .error (.declaration e) := by
    cbv
  have hp : e.path ≠ "/models" := by
    decide
  obtain ⟨part, told, v, hpart, habout, hpath, hresolve, hreads⟩ := load_refused hd h hp
  -- of the parts of the document, only the items stand at the end of this path
  have htold : part = .field ∧ told = turns ∧ v = items := by
    cases hpart with
    | model hvalues hi hm =>
      obtain rfl := Json.arr.inj (Option.some.inj hvalues)
      rw [List.getElem?_singleton] at hi
      obtain ⟨rfl, hvalue⟩ := Option.ite_none_right_eq_some.1 hi
      obtain rfl := Option.some.inj hvalue
      cases hm with
      | model => exact absurd hpath (by decide)
      | mask hmask => cases hmask.lookup_eq.2
      | field hfields hx hf =>
        obtain ⟨rfl, hlookup⟩ := hfields.lookup_eq
        obtain rfl := Option.some.inj hlookup
        obtain ⟨rfl, rfl⟩ := Prod.mk.inj (List.mem_singleton.1 (Keyed.mem_of_lookup hx))
        cases hf with
        | field => exact absurd hpath (by decide)
        | mask hmask => cases hmask.lookup_eq.2
        | items hitems hf =>
          obtain ⟨rfl, hlookup⟩ := hitems.lookup_eq
          obtain rfl := Option.some.inj hlookup
          cases hf with
          | field => exact ⟨rfl, rfl, rfl⟩
          | mask hmask => cases hmask.lookup_eq.2
          | items hitems => cases hitems.lookup_eq.2
  obtain ⟨rfl, rfl, rfl⟩ := htold
  exact ⟨hd, h, hp, hpart, habout, hpath, hresolve, hreads.2 (by decide)⟩
/--
The path of a field with a slash in its name, and that of a field of a model which is declared as an
array, lead nowhere.
-/
theorem load_refused_nowhere :
    let slashed : Json := .obj [("models", .arr [.obj [("name", .str "Cat"),
      ("fields", .obj [("a/b", declared "zip" [])])]])]
    let listed : Json := .obj [("models", .arr [.arr [.str "Cat", .null, .null, .bool false,
      .arr [], .arr [], .obj [("toys", declared "zip" [])]]])]
    let p : Pointer := ⟨["models", "0", "fields", "a", "b"]⟩
    let q : Pointer := ⟨["models", "0", "fields", "toys"]⟩
    load slashed
        = .error (.declaration (.invalid "/models/0/fields/a/b" (.unknownType "zip"))) ∧
      Pointer.ofText? "/models/0/fields/a/b" = some p ∧ slashed.resolve? p = none ∧
      load listed = .error (.declaration (.invalid "/models/0/fields/toys" (.unknownType "zip"))) ∧
      Pointer.ofText? "/models/0/fields/toys" = some q ∧ listed.resolve? q = none := by
  intro slashed listed p q
  refine ⟨?_, ?_, ?_, ?_, ?_, ?_⟩
  all_goals cbv

end Registry

end FieldMask
