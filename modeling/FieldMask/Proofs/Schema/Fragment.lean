import FieldMask.Proofs.Schema.Reference
import Mathlib

/-!
# The places that references mean

The fragment of a reference is read as a JSON pointer, once its octets are decoded. The reference to
a model means the place of the model among the definitions just if the name is verbatim
(`Reference.place?_stem_iff`). A pointer to that place is at least as long as the one in the
reference, and decoding an octet makes a text shorter, so a name with an octet in it never comes out
as it was written.
-/

namespace FieldMask

/-! ## Parts of URIs -/

namespace Uri

variable {admits : Char → Bool} {text : List Char}

theorem IsPart.all_of_not_mem (h : IsPart admits text) (hp : '%' ∉ text) :
    text.all admits = true := by
  induction h with
  | nil => rfl
  | octet _ _ _ => exact absurd List.mem_cons_self hp
  | char _ ha _ ih =>
    rw [List.all_cons, ha, ih fun hmem => hp (List.mem_cons_of_mem _ hmem)]
    rfl

theorem octets_cons {c : Char} (hc : c ≠ '%') :
    octets (c :: text) = .ofNat c.toNat :: octets text := by
  rw [octets]
  exact fun _ _ _ hc' => absurd hc' hc

theorem octets_octet {a b : Char} {n : UInt8} (hn : octet? a b = some n) :
    octets ('%' :: a :: b :: text) = n :: octets text := by
  rw [octets, hn]
  rfl

theorem IsPart.length_octets_le (h : IsPart admits text) :
    (octets text).length ≤ text.length := by
  induction h with
  | nil => exact Nat.le_refl _
  | @octet a b rest ho _ ih =>
    obtain ⟨n, hn⟩ := Option.isSome_iff_exists.1 ho
    simp only [octets_octet hn, List.length_cons]
    omega
  | char hc _ _ ih =>
    rw [octets_cons hc]
    exact Nat.succ_le_succ ih

/-- A part has fewer octets than characters if some octet is percent-encoded. -/
theorem IsPart.length_octets_lt (h : IsPart admits text) (hp : '%' ∈ text) :
    (octets text).length < text.length := by
  induction h with
  | nil => cases hp
  | @octet a b rest ho hrest _ =>
    obtain ⟨n, hn⟩ := Option.isSome_iff_exists.1 ho
    have := hrest.length_octets_le
    simp only [octets_octet hn, List.length_cons]
    omega
  | char hc _ _ ih =>
    rw [octets_cons hc]
    exact Nat.succ_lt_succ (ih ((List.mem_cons.1 hp).resolve_left (Ne.symm hc)))

end Uri

/-! ## Lengths -/

theorem length_le_utf8Len (text : List Char) : text.length ≤ String.utf8Len text := by
  induction text with
  | nil => exact Nat.le_refl _
  | cons c rest ih =>
    rw [List.length_cons, String.utf8Len_cons]
    exact Nat.add_le_add ih c.utf8Size_pos

/-- A text that bytes encode has no more characters than there are bytes. -/
theorem length_le_of_fromUTF8? {bytes : List UInt8} {text : String}
    (h : String.fromUTF8? ⟨bytes.toArray⟩ = some text) : text.toList.length ≤ bytes.length := by
  have hbytes : text.toByteArray = ⟨bytes.toArray⟩ := by
    unfold String.fromUTF8? at h
    split at h
    · obtain rfl := Option.some.inj h
      rfl
    · cases h
  have hsize : String.utf8Len text.toList = bytes.length := by
    rw [← String.utf8ByteSize_ofList, String.ofList_toList, ← String.size_toByteArray, hbytes]
    rfl
  exact hsize ▸ length_le_utf8Len text.toList

/-! ## The place of a model -/

namespace Reference

variable {name : String}

/-- What the reference to a model means is the pointer in its fragment, octets decoded. -/
theorem exists_text_of_place? {pointer : Pointer}
    (h : place? (referenceStem ++ name) = some pointer) :
    Uri.IsPart Uri.isTailChar (stemFragment name) ∧
      ∃ text, Uri.decode? (stemFragment name) = some text ∧
        Pointer.ofText? text = some pointer := by
  unfold place? at h
  split at h
  · rename_i target htarget
    rw [toList_stem] at htarget
    obtain ⟨rfl, hpart⟩ := Uri.ofText_mark_eq_ok htarget
    exact ⟨hpart, Option.bind_eq_some_iff.1 h⟩
  · cases h

/--
**The reference to a model means its place** among the definitions of its document just if the name
is verbatim.
-/
theorem place?_stem_iff :
    place? (referenceStem ++ name) = some (placeOf name) ↔ isVerbatim name = true := by
  refine ⟨fun h => ?_, place?_stem⟩
  obtain ⟨hpart, text, hdecode, hpointer⟩ := exists_text_of_place? h
  have htext : text.toList = stemChars ++ (Pointer.escape name).toList := by
    rw [← Pointer.ofText?_eq_some_iff.1 hpointer, toList_text_placeOf]
  by_cases hp : '%' ∈ stemFragment name
  · -- An octet makes the text shorter than what the pointer needs.
    rw [Uri.decode?, if_pos (by simpa using hp)] at hdecode
    have hbytes := length_le_of_fromUTF8? hdecode
    have hoctets := hpart.length_octets_lt hp
    have hlength : (stemFragment name).length = stemChars.length + name.toList.length :=
      List.length_append
    have hescape := Pointer.length_le_escape name
    rw [htext, List.length_append] at hbytes
    omega
  · rw [Uri.decode?, if_neg (by simpa using hp)] at hdecode
    obtain rfl := Option.some.inj hdecode
    rw [String.toList_ofList, stemFragment, List.append_cancel_left_eq] at htext
    have hall := hpart.all_of_not_mem hp
    rw [stemFragment, List.all_append, Bool.and_eq_true] at hall
    exact isVerbatim_iff.2 ⟨hall.2, Pointer.escape_eq_self_iff.1 (String.toList_inj.1 htext.symm)⟩

end Reference

end FieldMask
