import FieldMask.Json.Reader
import FieldMask.Proofs.Keyed

/-!
# Values that write no key twice

A member that the reader comes to is put to those before it, so it takes the place of an earlier one
with its key, and no value that is read writes a key twice (`distinct_of_read`).
-/

namespace FieldMask

namespace Json

variable {items : List Json} {members : Members}

theorem distinct_arr_iff : (Json.arr items).Distinct ↔ ∀ x ∈ items, x.Distinct := by
  rw [Distinct]
  induction items with
  | nil => simp [DistinctItems]
  | cons x rest ih => rw [DistinctItems, ih, List.forall_mem_cons]

theorem distinct_obj_iff :
    (Json.obj members).Distinct ↔
      (Keyed.keys members).Nodup ∧ ∀ m ∈ members, m.2.Distinct := by
  rw [Distinct]
  refine and_congr Iff.rfl ?_
  induction members with
  | nil => simp [DistinctMembers]
  | cons m rest ih =>
    obtain ⟨key, x⟩ := m
    rw [DistinctMembers, ih, List.forall_mem_cons]

theorem Distinct.get? {value v : Json} {key : String} (hd : value.Distinct)
    (h : value.get? key = some v) : v.Distinct := by
  cases value with
  | obj members => exact (distinct_obj_iff.1 hd).2 _ (Keyed.mem_of_lookup h)
  | _ => cases h

theorem Distinct.put {key : String} {value : Json} (hm : (Json.obj members).Distinct)
    (hv : value.Distinct) : (Json.obj (Keyed.put key value members)).Distinct := by
  rw [distinct_obj_iff] at hm ⊢
  refine ⟨Keyed.nodup_keys_put hm.1, fun m hmem => ?_⟩
  rcases Keyed.mem_put hmem with rfl | hmem
  · exact hv
  · exact hm.2 m hmem

/-! ## Steps of the reader -/

/-- A value that is read is an array, an object or a scalar. -/
theorem readValue_eq_ok {depth : Nat} {text : List Char} {r : Read Json text}
    (h : readValue depth text = .ok r) :
    (∃ depth' rest items, rest.length < text.length ∧
        readItems depth' true [] rest = .ok items ∧ r.value = .arr items.value) ∨
      (∃ depth' rest members, rest.length < text.length ∧
        readMembers depth' true [] rest = .ok members ∧ r.value = .obj members.value) ∨
      ∃ c rest rest', readScalar c rest = .ok (r.value, rest') := by
  rw [readValue] at h
  split at h
  · cases h
  · rename_i c rest hskip
    have hlen : rest.length < text.length := by
      have := length_skipBlanks_le text
      rw [hskip, List.length_cons] at this
      exact this
    split_ifs at h
    · cases depth with
      | zero => cases h
      | succ depth =>
        dsimp only at h
        split at h
        · cases h
        · rename_i items hitems
          obtain rfl := Except.ok.inj h
          exact .inl ⟨depth, rest, items, hlen, hitems, rfl⟩
    · cases depth with
      | zero => cases h
      | succ depth =>
        dsimp only at h
        split at h
        · cases h
        · rename_i members hmembers
          obtain rfl := Except.ok.inj h
          exact .inr (.inl ⟨depth, rest, members, hlen, hmembers, rfl⟩)
    · split at h
      · cases h
      · rename_i v rest' hscalar
        obtain rfl := Except.ok.inj h
        exact .inr (.inr ⟨c, rest, rest', hscalar⟩)

/-- Items are at an end, or one is read before the others. -/
theorem readItems_eq_ok {depth : Nat} {first : Bool} {done : List Json} {text : List Char}
    {r : Read (List Json) text} (h : readItems depth first done text = .ok r) :
    r.value = done.reverse ∨
      ∃ (rest : List Char) (x : Read Json rest) (others : Read (List Json) x.rest),
        rest.length ≤ text.length ∧ x.rest.length < text.length ∧
        readValue depth rest = .ok x ∧
        readItems depth false (x.value :: done) x.rest = .ok others ∧ r.value = others.value := by
  rw [readItems] at h
  split at h
  · cases h
  · obtain rfl := Except.ok.inj h
    exact .inl rfl
  · rename_i rest hle _
    split at h
    · cases h
    · rename_i x hx
      have hlt : x.rest.length < text.length := Nat.lt_of_lt_of_le x.shorter hle
      dsimp only at h
      split at h
      · cases h
      · rename_i others hothers
        obtain rfl := Except.ok.inj h
        exact .inr ⟨rest, x, others, hle, hlt, hx, hothers, rfl⟩

/-- Members are at an end, or one is put to those before it. -/
theorem readMembers_eq_ok {depth : Nat} {first : Bool} {done : Members} {text : List Char}
    {r : Read Members text} (h : readMembers depth first done text = .ok r) :
    r.value = done ∨
      ∃ (key : String) (rest : List Char) (x : Read Json rest) (others : Read Members x.rest),
        rest.length < text.length ∧ x.rest.length < text.length ∧
        readValue depth rest = .ok x ∧
        readMembers depth false (Keyed.put key x.value done) x.rest = .ok others ∧
        r.value = others.value := by
  rw [readMembers] at h
  split at h
  · cases h
  · obtain rfl := Except.ok.inj h
    exact .inl rfl
  · rename_i rest hle _
    split at h
    · cases h
    · rename_i key rest₁ hkey
      split at h
      · cases h
      · rename_i rest₂ hcolon
        have hlt : rest₂.length < text.length := by
          have := length_readString hkey
          have := length_readColon hcolon
          omega
        dsimp only at h
        split at h
        · cases h
        · rename_i x hx
          split at h
          · cases h
          · rename_i others hothers
            obtain rfl := Except.ok.inj h
            exact .inr ⟨key, rest₂, x, others, hlt, Nat.lt_trans x.shorter hlt, hx, hothers, rfl⟩

theorem distinct_of_readScalar {c : Char} {text rest : List Char} {v : Json}
    (h : readScalar c text = .ok (v, rest)) : v.Distinct := by
  unfold readScalar at h
  split_ifs at h
  case neg => cases h
  all_goals
    obtain ⟨r, -, h⟩ := exists_of_bind_ok h
    cases h
    trivial

/-! ## What is read -/

mutual

theorem distinct_of_readValue {depth : Nat} {text : List Char} {r : Read Json text}
    (h : readValue depth text = .ok r) : r.value.Distinct := by
  rcases readValue_eq_ok h with
    ⟨depth', rest, items, hlt, hitems, hr⟩ | ⟨depth', rest, members, hlt, hmembers, hr⟩ |
      ⟨c, rest, rest', hscalar⟩
  · rw [hr]
    exact distinct_arr_iff.2 (distinct_of_readItems (List.forall_mem_nil _) hitems)
  · rw [hr]
    have hnil : (Json.obj []).Distinct := ⟨List.nodup_nil, trivial⟩
    exact distinct_of_readMembers hnil hmembers
  · exact distinct_of_readScalar hscalar
termination_by 2 * text.length

theorem distinct_of_readItems {depth : Nat} {first : Bool} {done : List Json} {text : List Char}
    (hd : ∀ x ∈ done, x.Distinct) {r : Read (List Json) text}
    (h : readItems depth first done text = .ok r) : ∀ x ∈ r.value, x.Distinct := by
  rcases readItems_eq_ok h with hr | ⟨rest, x, others, hle, hlt, hx, hothers, hr⟩
  · rw [hr]
    exact fun x hx => hd x (List.mem_reverse.1 hx)
  · rw [hr]
    exact distinct_of_readItems (List.forall_mem_cons.2 ⟨distinct_of_readValue hx, hd⟩) hothers
termination_by 2 * text.length + 1

theorem distinct_of_readMembers {depth : Nat} {first : Bool} {done : Members} {text : List Char}
    (hd : (Json.obj done).Distinct) {r : Read Members text}
    (h : readMembers depth first done text = .ok r) : (Json.obj r.value).Distinct := by
  rcases readMembers_eq_ok h with hr | ⟨key, rest, x, others, hle, hlt, hx, hothers, hr⟩
  · rw [hr]
    exact hd
  · rw [hr]
    exact distinct_of_readMembers (hd.put (distinct_of_readValue hx)) hothers
termination_by 2 * text.length + 1

end

/-- **No value that is read from a text writes a key twice.** -/
theorem distinct_of_read {text : String} {v : Json} (h : read text = .ok v) : v.Distinct := by
  rw [read, readWithin] at h
  dsimp only at h
  split at h
  · cases h
  · rename_i r hr
    split at h
    · obtain rfl := Except.ok.inj h
      exact distinct_of_readValue hr
    · cases h

end Json

end FieldMask
