import FieldMask.Proofs.Outcome
import FieldMask.Proofs.Pointer.Decoding
import FieldMask.Schema.Definition
import FieldMask.Schema.Reference

/-!
# References to models

The reference to a model has the name of the model as it is. Such a reference leads to what stands
under the name among the definitions of a document if the name is verbatim, that is, if neither a
URI nor a pointer would write it in another way (`Reference.resolve_stem`). A plain name, of ASCII
letters, digits, underscores and hyphens alone, is verbatim.

What a reference means is read off it as RFC 6901 has it (`Reference.place?`). The reader of the
validator agrees wherever this gives a place (`Reference.pointer?_of_ofText?`).
-/

namespace FieldMask

/-- Whether a character can stand in a plain name: an ASCII letter or digit, `_` or `-`. -/
def isPlainChar (c : Char) : Bool := c.isAlphanum || c == '_' || c == '-'

/-- Whether a name has nothing but ASCII letters, digits, underscores and hyphens. -/
def isPlainName (name : String) : Bool := name.toList.all isPlainChar

/-- Whether all registered names are plain. -/
def Registry.isPlainlyNamed (r : Registry) : Bool := r.names.all isPlainName

/--
Whether a name is written as it is in a reference: the fragment of a URI can have all its
characters, and none of them is a slash or a tilde.
-/
def isVerbatim (name : String) : Bool :=
  name.toList.all fun c => Uri.isTailChar c && c != '/' && c != '~'

theorem isPlainName_of_find? {r : Registry} (h : r.isPlainlyNamed = true) {name : String}
    {model : Model} (hm : r.find? name = some model) : isPlainName name = true :=
  List.all_eq_true.1 h name (Registry.mem_names_of_find? hm)

/-! ## URIs -/

namespace Uri

/-- A text of admitted characters is one part, whatever its offset. -/
theorem takePart_eq_ok {admits : Char → Bool} {text : List Char} (h : text.all admits = true)
    (hp : '%' ∉ text) (offset : Nat) : takePart admits offset text = .ok (text, []) := by
  induction text generalizing offset with
  | nil => rfl
  | cons c rest ih =>
    obtain ⟨hc, hrest⟩ := not_or.1 fun h' => hp (List.mem_cons.2 h')
    obtain ⟨hadmits, hall⟩ := Bool.and_eq_true_iff.1 (List.all_cons.symm.trans h)
    rw [takePart, if_pos hadmits, ih hall hrest]
    · rfl
    · exact fun _ _ _ hc' => absurd hc'.symm hc
    · exact fun hc' => absurd hc'.symm hc

/-- A mark and admitted characters behind it are a reference that has a fragment only. -/
theorem ofText_fragment {text : List Char} (h : text.all isTailChar = true) (hp : '%' ∉ text) :
    ofText ('#' :: text) = .ok ⟨none, none, [], none, some text⟩ := by
  have hfragment : takeMarked '#' 0 ('#' :: text) = .ok (some text, []) := by
    rw [takeMarked, if_pos rfl, takePart_eq_ok h hp]
    rfl
  show readTail none none [] 0 ('#' :: text) = _
  show (takeMarked '#' 0 ('#' :: text) >>= _) = _
  rw [hfragment]
  rfl

/-- The text consists of admitted characters and percent-encoded octets. -/
inductive IsPart (admits : Char → Bool) : List Char → Prop
  | nil : Uri.IsPart admits []
  | octet {a b : Char} {rest : List Char} (ho : (octet? a b).isSome = true)
      (h : Uri.IsPart admits rest) : Uri.IsPart admits ('%' :: a :: b :: rest)
  | char {c : Char} {rest : List Char} (hc : c ≠ '%') (ha : admits c = true)
      (h : Uri.IsPart admits rest) : Uri.IsPart admits (c :: rest)

variable {admits : Char → Bool} {text part rest : List Char} {offset : Nat}

/-- What is taken off the front of a text is a part, and the rest remains. -/
theorem takePart_eq_ok_append (h : takePart admits offset text = .ok (part, rest)) :
    part ++ rest = text ∧ IsPart admits part := by
  induction offset, text using takePart.induct admits generalizing part rest with
  | case1 offset a b tail hoctet ih =>
    rw [takePart, if_pos hoctet] at h
    obtain ⟨⟨front, remaining⟩, hfront, h⟩ := bind_eq_ok.1 h
    obtain ⟨rfl, rfl⟩ := Prod.mk.inj (pure_eq_ok.1 h)
    obtain ⟨rfl, hpart⟩ := ih hfront
    exact ⟨rfl, .octet hoctet hpart⟩
  | case2 offset a b tail hoctet =>
    rw [takePart, if_neg hoctet] at h
    cases h
  | case3 offset tail hshort =>
    rw [takePart] at h
    · cases h
    · exact hshort
  | case4 offset c tail hlong hshort hadmits ih =>
    rw [takePart, if_pos hadmits] at h
    · obtain ⟨⟨front, remaining⟩, hfront, h⟩ := bind_eq_ok.1 h
      obtain ⟨rfl, rfl⟩ := Prod.mk.inj (pure_eq_ok.1 h)
      obtain ⟨rfl, hpart⟩ := ih hfront
      exact ⟨rfl, .char hshort hadmits hpart⟩
    · exact hlong
    · exact hshort
  | case5 offset c tail hlong hshort hadmits =>
    rw [takePart, if_neg hadmits] at h
    · obtain ⟨rfl, rfl⟩ := Prod.mk.inj (Except.ok.inj h)
      exact ⟨rfl, .nil⟩
    · exact hlong
    · exact hshort
  | case6 offset =>
    rw [takePart] at h
    obtain ⟨rfl, rfl⟩ := Prod.mk.inj (Except.ok.inj h)
    exact ⟨rfl, .nil⟩

/-- A reference that begins with a mark has everything behind it as its fragment. -/
theorem ofText_mark_eq_ok {target : Uri} (h : ofText ('#' :: text) = .ok target) :
    target = ⟨none, none, [], none, some text⟩ ∧ IsPart isTailChar text := by
  have h : (takeMarked '#' 0 ('#' :: text) >>= fun marked =>
      if marked.2.isEmpty then pure ⟨none, none, [], none, marked.1⟩
      else throw (.unexpectedCharacter (0 + markedLength marked.1))) = .ok target := h
  rw [takeMarked, if_pos rfl] at h
  obtain ⟨⟨fragment, remaining⟩, hmarked, h⟩ := bind_eq_ok.1 h
  obtain ⟨⟨part, rest⟩, hpart, hmarked⟩ := bind_eq_ok.1 hmarked
  obtain ⟨rfl, rfl⟩ := Prod.mk.inj (pure_eq_ok.1 hmarked)
  dsimp only at h
  split at h
  · rename_i hempty
    obtain rfl := List.isEmpty_iff.1 hempty
    obtain rfl := pure_eq_ok.1 h
    obtain ⟨rfl, hp⟩ := takePart_eq_ok_append hpart
    rw [List.append_nil]
    exact ⟨rfl, hp⟩
  · cases h

end Uri

theorem not_mem_of_all {p : Char → Bool} {text : List Char} (h : text.all p = true) {c : Char}
    (hc : p c = false) : c ∉ text := by
  intro hmem
  cases (List.all_eq_true.1 h c hmem).symm.trans hc

/-! ## Verbatim names -/

theorem isVerbatim_iff {name : String} :
    isVerbatim name = true ↔
      name.toList.all Uri.isTailChar = true ∧ Pointer.IsPlain name := by
  simp only [isVerbatim, Pointer.IsPlain, List.all_eq_true, Bool.and_eq_true, bne_iff_ne]
  constructor
  · exact fun h => ⟨fun c hc => (h c hc).1.1, fun hmem => (h _ hmem).2 rfl,
      fun hmem => (h _ hmem).1.2 rfl⟩
  · exact fun ⟨hall, htilde, hslash⟩ c hc =>
      ⟨⟨hall c hc, fun heq => hslash (heq ▸ hc)⟩, fun heq => htilde (heq ▸ hc)⟩

theorem isTailChar_of_isPlainChar {c : Char} (h : isPlainChar c = true) :
    Uri.isTailChar c = true := by
  rcases Bool.or_eq_true_iff.1 h with h | h
  · rcases Bool.or_eq_true_iff.1 h with h | h
    · simp [Uri.isTailChar, Uri.isPathChar, Uri.isSegmentChar, Uri.isHostChar, Uri.isUnreserved, h]
    · rw [eq_of_beq h]
      rfl
  · rw [eq_of_beq h]
    rfl

theorem isVerbatim_of_isPlainName {name : String} (h : isPlainName name = true) :
    isVerbatim name = true := by
  refine isVerbatim_iff.2 ⟨?_, not_mem_of_all h (by decide), not_mem_of_all h (by decide)⟩
  exact List.all_eq_true.2 fun c hc => isTailChar_of_isPlainChar (List.all_eq_true.1 h c hc)

namespace Reference

/-! ## Pointers of the validator -/

theorem unescape_cons_of_ne {c : Char} (hc : c ≠ '~') (rest : List Char) :
    unescape (c :: rest) = c :: unescape rest := by
  rw [unescape]
  · exact fun _ hc' => absurd hc' hc
  · exact fun _ hc' => absurd hc' hc
  · exact fun _ _ hc' => absurd hc' hc

theorem unescape_escape (segment : String) :
    unescape (Pointer.escape segment).toList = segment.toList := by
  rw [Pointer.toList_escape]
  induction segment.toList with
  | nil => rfl
  | cons c rest ih =>
    rw [List.flatMap_cons, Pointer.escapeChar]
    by_cases htilde : c = '~'
    · rw [if_pos htilde, htilde]
      exact congrArg _ ih
    · rw [if_neg htilde]
      by_cases hslash : c = '/'
      · rw [if_pos hslash, hslash]
        exact congrArg _ ih
      · rw [if_neg hslash]
        exact (unescape_cons_of_ne htilde _).trans (congrArg _ ih)

theorem pointer?_text (p : Pointer) : pointer? p.text = some p := by
  obtain ⟨segments⟩ := p
  rw [pointer?, Pointer.text, Pointer.toList_foldl_join]
  cases segments with
  | nil => rfl
  | cons first rest =>
    rw [List.flatMap_cons]
    show some (Pointer.mk ((splitAt '/' (_ ++ _)).map _)) = _
    rw [Pointer.splitAt_segments, List.map_map]
    refine congrArg (fun segments => some (Pointer.mk segments)) ?_
    refine (List.map_congr_left fun segment _ => ?_).trans (List.map_id _)
    show String.ofList (unescape (Pointer.escape segment).toList) = segment
    rw [unescape_escape, String.ofList_toList]

/-- **The validator reads every pointer** as the place that it is the text of. -/
theorem pointer?_of_ofText? {text : String} {p : Pointer} (h : Pointer.ofText? text = some p) :
    pointer? text = some p :=
  Pointer.ofText?_eq_some_iff.1 h ▸ pointer?_text p

/-! ## References to models -/

/-- What every fragment of a reference to a model begins with. -/
def stemChars : List Char :=
  ['/', 'd', 'e', 'f', 'i', 'n', 'i', 't', 'i', 'o', 'n', 's', '/']

/-- The fragment of the reference to a model. -/
def stemFragment (name : String) : List Char := stemChars ++ name.toList

theorem toList_stem (name : String) :
    (referenceStem ++ name).toList = '#' :: stemFragment name := by
  rw [String.toList_append]
  rfl

theorem all_stemFragment {name : String} (h : name.toList.all Uri.isTailChar = true) :
    (stemFragment name).all Uri.isTailChar = true := by
  rw [stemFragment, List.all_append, h, Bool.and_true]
  decide

/-- The place that a reference points to in its document, if its fragment is a pointer. -/
def place? (text : String) : Option Pointer :=
  match Uri.ofText text.toList with
  | .ok target => (target.fragment.bind Uri.decode?).bind Pointer.ofText?
  | .error _ => none

/-- The reference to a model leads to the value at the place that it means, if it means one. -/
theorem resolve_stem_eq_ok {document out : Json} {name : String} {p : Pointer}
    (hp : place? (referenceStem ++ name) = some p) :
    resolve document (referenceStem ++ name) = .ok out ↔ document.at? p = some out := by
  have hfragment : fragmentOf (referenceStem ++ name) = stemFragment name := by
    rw [fragmentOf, toList_stem]
    rfl
  rw [place?, toList_stem] at hp
  rw [resolve, hfragment, uri, toList_stem]
  cases htarget : Uri.ofText ('#' :: stemFragment name) with
  | error fault =>
    rw [htarget] at hp
    cases hp
  | ok target =>
    obtain ⟨rfl, -⟩ := Uri.ofText_mark_eq_ok htarget
    rw [htarget] at hp
    obtain ⟨text, hdecode, hpointer⟩ := Option.bind_eq_some_iff.1 hp
    have hdecode : Uri.decode? (stemFragment name) = some text := hdecode
    have hbase : (base.resolve ⟨none, none, [], none, some (stemFragment name)⟩).normal.document
        = base := rfl
    dsimp only
    rw [bind_ok, if_pos hbase]
    show follow document (stemFragment name) = .ok out ↔ _
    rw [follow, hdecode]
    dsimp only
    rw [pointer?_of_ofText? hpointer, Option.bind_some]
    cases document.at? p with
    | none => exact iff_of_false nofun nofun
    | some v => rw [Except.ok.injEq, Option.some.injEq]

/-- The place of a model among the definitions of a document. -/
def placeOf (name : String) : Pointer := ⟨["definitions", name]⟩

theorem toList_text_placeOf (name : String) :
    (placeOf name).text.toList = stemChars ++ (Pointer.escape name).toList := by
  rw [Pointer.text, Pointer.toList_foldl_join, placeOf, List.flatMap_cons, List.flatMap_cons,
    List.flatMap_nil, List.append_nil, Pointer.escape_eq_self_iff.2 (by decide)]
  rfl

theorem at?_placeOf {document definitions target : Json} {name : String}
    (hd : document.get? "definitions" = some definitions)
    (ht : definitions.get? name = some target) : document.at? (placeOf name) = some target := by
  cases document with
  | obj members =>
    cases definitions with
    | obj named =>
      show (Json.step? (.obj members) "definitions" >>= fun v => v.step? name >>= pure) = _
      rw [Json.step?, show members.lookup "definitions" = _ from hd]
      show (named.lookup name >>= pure) = _
      rw [show named.lookup name = _ from ht]
      rfl
    | _ => cases ht
  | _ => cases hd

/-- A name of characters that a fragment can have is read as a part of the pointer as it is. -/
theorem place?_stem_of_all {name : String} (h : name.toList.all Uri.isTailChar = true) :
    place? (referenceStem ++ name) = Pointer.ofText? (String.ofList (stemFragment name)) := by
  have hall := all_stemFragment h
  have hp : '%' ∉ stemFragment name := not_mem_of_all hall (by decide)
  rw [place?, toList_stem, Uri.ofText_fragment hall hp]
  show (Uri.decode? (stemFragment name)).bind Pointer.ofText? = _
  rw [Uri.decode?, if_neg (by simpa using hp), Option.bind_some]

theorem place?_stem {name : String} (h : isVerbatim name = true) :
    place? (referenceStem ++ name) = some (placeOf name) := by
  obtain ⟨hall, hplain⟩ := isVerbatim_iff.1 h
  rw [place?_stem_of_all hall, Pointer.ofText?_eq_some_iff, ← String.toList_inj,
    toList_text_placeOf, Pointer.escape_eq_self_iff.2 hplain, String.toList_ofList, stemFragment]

/-- **The reference to a verbatim name** leads to what stands under it among the definitions. -/
theorem resolve_stem {document definitions target : Json} {name : String}
    (h : isVerbatim name = true) (hd : document.get? "definitions" = some definitions)
    (ht : definitions.get? name = some target) :
    resolve document (referenceStem ++ name) = .ok target := by
  rw [resolve_stem_eq_ok (place?_stem h), at?_placeOf hd ht]

end Reference

end FieldMask
