import FieldMask.Json.Equality
import FieldMask.Json.Size
import FieldMask.Proofs.Keyed
import Mathlib

/-!
# Values that mean the same

A number means what it is worth, however it is written, and an object means its members, in whatever
order they stand: `Json.Same` says when two values mean the same, without regard to how anybody
compares them.

An `Equality` says when values count as the same. Each `Comparison` has one, and a comparison is
`Standard` if that is equality by meaning, as the specification of schemas has it. This is what is
assumed of a validator where equality by meaning is spoken of. `Comparison.exact` is standard; the
installed comparison differs from it where members stand in another order, and in long lists with
zeros of both signs.
-/

namespace FieldMask

/-! ## Numbers -/

namespace Binary64

/-- The exact value of a number. -/
def value (x : Binary64) : ℚ :=
  (if x.negative then -1 else 1) * ((x.mantissa : ℚ) * 2 ^ x.exponent)

/-- The ratio of a number is its magnitude. -/
theorem div_ratio (x : Binary64) :
    (x.ratio.1 : ℚ) / x.ratio.2 = (x.mantissa : ℚ) * 2 ^ x.exponent := by
  unfold ratio
  split
  · rename_i h
    obtain ⟨n, hn⟩ := Int.eq_ofNat_of_zero_le h
    simp [hn, Nat.shiftLeft_eq]
  · rename_i h
    obtain ⟨n, hn⟩ := Int.eq_ofNat_of_zero_le (a := -x.exponent) (by omega)
    have he : x.exponent = -(n : ℤ) := by omega
    simp [he, Nat.shiftLeft_eq, div_eq_mul_inv]

end Binary64

/-- What the number is worth. -/
def Number.value : Number → ℚ
  | .int z _ => z
  | .float x => x.value

/-! ## Values -/

namespace Json

/-- The values mean the same. -/
inductive Same : Json → Json → Prop
  | null : Same .null .null
  | bool (b : Bool) : Same (.bool b) (.bool b)
  | num {m n : Number} (h : m.value = n.value) : Same (.num m) (.num n)
  | str (s : String) : Same (.str s) (.str s)
  | arr {xs ys : List Json} (hl : xs.length = ys.length) (h : ∀ p ∈ xs.zip ys, Same p.1 p.2) :
      Same (.arr xs) (.arr ys)
  | obj {xs ys : Members} (hk : ∀ key, key ∈ Keyed.keys xs ↔ key ∈ Keyed.keys ys)
      (h : ∀ key x y, xs.lookup key = some x → ys.lookup key = some y → Same x y) :
      Same (.obj xs) (.obj ys)

/-- Every value means the same as itself. -/
theorem Same.refl (v : Json) : v.Same v := by
  cases v with
  | null => exact .null
  | bool b => exact .bool b
  | num n => exact .num rfl
  | str s => exact .str s
  | arr xs =>
    refine .arr rfl fun p hp => ?_
    obtain ⟨i, hi, rfl⟩ := List.mem_iff_getElem.1 hp
    rw [List.getElem_zip]
    have hlt : i < xs.length := by simpa using hi
    have : sizeOf xs[i] < 1 + sizeOf xs := by
      simpa using sizeOf_lt_of_mem_items (List.getElem_mem hlt)
    exact Same.refl xs[i]
  | obj members =>
    refine .obj (fun key => Iff.rfl) fun key x y hx hy => ?_
    obtain rfl := Option.some.inj (hx.symm.trans hy)
    have : sizeOf x < 1 + sizeOf members := by
      simpa using sizeOf_lt_of_mem_members (Keyed.mem_of_lookup hx)
    exact Same.refl x
termination_by sizeOf v

/-- A member more of the same key and meaning changes nothing. -/
theorem Same.cons {key : String} {x y : Json} {xs ys : Members} (hx : x.Same y)
    (h : (Json.obj xs).Same (.obj ys)) :
    (Json.obj ((key, x) :: xs)).Same (.obj ((key, y) :: ys)) := by
  cases h with
  | obj hk h =>
    refine .obj (fun k => by simp [hk]) fun k v w hv hw => ?_
    rw [Keyed.lookup_cons] at hv hw
    split at hv
    · rename_i heq
      rw [if_pos heq] at hw
      exact Option.some.inj hv ▸ Option.some.inj hw ▸ hx
    · rename_i hne
      rw [if_neg hne] at hw
      exact h k v w hv hw

end Json

/-- When values count as the same, and when no value of a list comes twice. -/
structure Equality where
  same : Json → Json → Prop
  unique : List Json → Prop

/-- Equality by meaning. -/
def Equality.byMeaning : Equality := ⟨Json.Same, fun items => items.Pairwise fun v w => ¬v.Same w⟩

namespace Comparison

/-- The equality that a comparison decides. -/
def equality (c : Comparison) : Equality :=
  ⟨fun v w => c.equals v w = true, fun items => c.unique items = true⟩

/-- The comparison decides equality by meaning. -/
structure Standard (c : Comparison) : Prop where
  equals (v w : Json) : c.equals v w = true ↔ v.Same w
  unique (items : List Json) : c.unique items = true ↔ items.Pairwise fun v w => ¬v.Same w

theorem Standard.equality_eq {c : Comparison} (h : c.Standard) : c.equality = .byMeaning := by
  unfold equality Equality.byMeaning
  congr 1
  · exact funext₂ fun v w => propext (h.equals v w)
  · exact funext fun items => propext (h.unique items)

end Comparison

/-! ## An exact comparison -/

namespace Json

mutual

/-- Whether two values mean the same. -/
def same : Json → Json → Bool
  | .null, .null => true
  | .bool a, .bool b => a == b
  | .num a, .num b => a.value == b.value
  | .str a, .str b => a == b
  | .arr xs, .arr ys => sameItems xs ys
  | .obj xs, .obj ys => sameMembers ys [] xs && (Keyed.keys ys).all (Keyed.contains xs)
  | _, _ => false

/-- Whether items mean the same, one by one. -/
def sameItems : List Json → List Json → Bool
  | [], [] => true
  | x :: xs, y :: ys => x.same y && sameItems xs ys
  | _, _ => false

/-- Whether members mean the same as those of their keys among others, keys that are passed over
aside. -/
def sameMembers (others : Members) (passed : List String) : Members → Bool
  | [] => true
  | (key, x) :: rest =>
    (passed.contains key || (others.lookup key).any fun y => x.same y)
      && sameMembers others (key :: passed) rest

end

theorem sameItems_iff {xs ys : List Json} (ih : ∀ x ∈ xs, ∀ y, x.same y = true ↔ x.Same y) :
    sameItems xs ys = true ↔ xs.length = ys.length ∧ ∀ p ∈ xs.zip ys, p.1.Same p.2 := by
  induction xs generalizing ys with
  | nil => cases ys <;> simp [sameItems]
  | cons x xs ih' =>
    obtain ⟨hx, hxs⟩ := List.forall_mem_cons.1 ih
    cases ys with
    | nil => simp [sameItems]
    | cons y ys =>
      rw [sameItems, Bool.and_eq_true, hx, ih' hxs, List.length_cons, List.length_cons,
        Nat.add_right_cancel_iff, List.zip_cons_cons, List.forall_mem_cons]
      exact and_left_comm

theorem sameMembers_iff {xs others : Members} (passed : List String)
    (ih : ∀ m ∈ xs, ∀ y, m.2.same y = true ↔ m.2.Same y) :
    sameMembers others passed xs = true ↔
      ∀ key x, key ∉ passed → xs.lookup key = some x →
        ∃ y, others.lookup key = some y ∧ x.Same y := by
  induction xs generalizing passed with
  | nil => simp [sameMembers]
  | cons m rest ih' =>
    obtain ⟨name, v⟩ := m
    obtain ⟨hv, hrest⟩ := List.forall_mem_cons.1 ih
    have hfirst : (passed.contains name || (others.lookup name).any fun y => v.same y) = true ↔
        (name ∉ passed → ∃ y, others.lookup name = some y ∧ v.Same y) := by
      rw [Bool.or_eq_true, List.contains_iff_mem, or_iff_not_imp_left, Option.any_eq_true]
      simp only [hv]
    rw [sameMembers, Bool.and_eq_true, hfirst, ih' _ hrest]
    constructor
    · rintro ⟨hname, hall⟩ key x hkey hx
      rw [List.lookup_cons] at hx
      split at hx
      · rename_i heq
        obtain rfl := beq_iff_eq.1 heq
        exact Option.some.inj hx ▸ hname hkey
      · rename_i hne
        refine hall key x (List.not_mem_cons_of_ne_of_not_mem ?_ hkey) hx
        exact beq_eq_false_iff_ne.1 hne
    · intro h
      refine ⟨fun hname => h name v hname (by simp), fun key x hkey hx => ?_⟩
      refine h key x (fun hmem => hkey (List.mem_cons_of_mem _ hmem)) ?_
      have hne : key ≠ name := fun heq => hkey (heq ▸ List.mem_cons_self)
      rw [List.lookup_cons, beq_eq_false_iff_ne.2 hne]
      exact hx

/-- The exact comparison decides whether two values mean the same. -/
theorem same_iff (v w : Json) : v.same w = true ↔ v.Same w := by
  have hitems {xs : List Json} (hv : v = .arr xs) : ∀ x ∈ xs, ∀ y, x.same y = true ↔ x.Same y :=
    fun x hx y => by
      have : sizeOf x < sizeOf v := hv ▸ sizeOf_lt_of_mem_items hx
      exact same_iff x y
  have hmembers {xs : Members} (hv : v = .obj xs) :
      ∀ m ∈ xs, ∀ y, m.2.same y = true ↔ m.2.Same y := fun m hm y => by
    have : sizeOf m.2 < sizeOf v := hv ▸ sizeOf_lt_of_mem_members hm
    exact same_iff m.2 y
  constructor
  · intro h
    cases v with
    | null =>
      cases w with
      | null => exact .null
      | _ => cases h
    | bool a =>
      cases w with
      | bool b => exact beq_iff_eq.1 h ▸ .bool a
      | _ => cases h
    | num a =>
      cases w with
      | num b => exact .num (beq_iff_eq.1 h)
      | _ => cases h
    | str a =>
      cases w with
      | str b => exact beq_iff_eq.1 h ▸ .str a
      | _ => cases h
    | arr xs =>
      cases w with
      | arr ys =>
        obtain ⟨hl, hall⟩ := (sameItems_iff (hitems rfl)).1 h
        exact .arr hl hall
      | _ => cases h
    | obj xs =>
      cases w with
      | obj ys =>
        obtain ⟨hxs, hys⟩ := Bool.and_eq_true_iff.1 h
        have hxs := (sameMembers_iff [] (hmembers rfl)).1 hxs
        have hkeys (key : String) (hkey : key ∈ Keyed.keys xs) : key ∈ Keyed.keys ys := by
          obtain ⟨x, hx⟩ := Option.isSome_iff_exists.1 (Keyed.contains_iff.2 hkey)
          obtain ⟨y, hy, -⟩ := hxs key x List.not_mem_nil hx
          exact Keyed.mem_keys_of_mem (Keyed.mem_of_lookup hy)
        refine .obj (fun key => ⟨hkeys key, fun hkey => ?_⟩) fun key x y hx hy => ?_
        · exact Keyed.contains_iff.1 (List.all_eq_true.1 hys key hkey)
        · obtain ⟨y', hy', hsame⟩ := hxs key x List.not_mem_nil hx
          exact Option.some.inj (hy.symm.trans hy') ▸ hsame
      | _ => cases h
  · intro h
    cases h with
    | null => rfl
    | bool b => exact beq_self_eq_true b
    | num h => exact beq_iff_eq.2 h
    | str s => exact beq_self_eq_true s
    | arr hl h => exact (sameItems_iff (hitems rfl)).2 ⟨hl, h⟩
    | @obj xs ys hk h =>
      refine Bool.and_eq_true_iff.2 ⟨(sameMembers_iff [] (hmembers rfl)).2 ?_, ?_⟩
      · intro key x _ hx
        have hkey := (hk key).1 (Keyed.mem_keys_of_mem (Keyed.mem_of_lookup hx))
        obtain ⟨y, hy⟩ := Option.isSome_iff_exists.1 (Keyed.contains_iff.2 hkey)
        exact ⟨y, hy, h key x y hx hy⟩
      · exact List.all_eq_true.2 fun key hkey => Keyed.contains_iff.2 ((hk key).2 hkey)
termination_by sizeOf v

theorem noneTwice_iff (items : List Json) :
    noneTwice same items = true ↔ items.Pairwise fun v w => ¬v.Same w := by
  induction items with
  | nil => simp [noneTwice]
  | cons x xs ih =>
    rw [noneTwice, Bool.and_eq_true, ih, List.pairwise_cons, Bool.not_eq_true', List.any_eq_false]
    simp only [same_iff]

end Json

/-- The comparison of values by meaning. -/
def Comparison.exact : Comparison := ⟨Json.same, Json.noneTwice Json.same⟩

theorem Comparison.exact_standard : exact.Standard := ⟨Json.same_iff, Json.noneTwice_iff⟩

end FieldMask
