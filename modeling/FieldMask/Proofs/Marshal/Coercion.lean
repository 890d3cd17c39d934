import FieldMask.Proofs.Json.Meaning
import FieldMask.Proofs.Marshal.Steps
import FieldMask.Proofs.Text.Blank
import FieldMask.Schema.Type
import Mathlib

/-!
# What coercion gives

A coerced value is in the form of its kind (`form_of_coerce`), and a value in the form of a kind
stays as it is (`coerce_of_form`). So coercion gives values of the type that the schema of the kind
asks for, and to coerce twice is to coerce once.

Integers are exact. A value stands for an integer if it is that integer, if it is a text that
denotes it in the decimal system, or if it is a float that is the integer but for its fraction. The
bounds are those of 64-bit words: a text may go up to the greatest one without a sign, a float to
the greatest one with a sign. A field of integers takes just the values that stand for an integer,
and gives that integer (`fieldValue_integer`).
-/

namespace FieldMask

/-! ## Texts of integers -/

/-- One or more decimal digits. -/
def IsNumeral (digits : List Char) : Prop := digits ≠ [] ∧ ∀ c ∈ digits, c.isDigit = true

/-- The number that digits denote in the decimal system. -/
def decimal (digits : List Char) : ℕ := Nat.ofDigits 10 (digits.reverse.map digitValue)

/-- The text is one or more digits behind a sign or none, and denotes the integer. -/
inductive Denotes : List Char → ℤ → Prop
  | unsigned {digits : List Char} (h : IsNumeral digits) : Denotes digits (decimal digits)
  | plus {digits : List Char} (h : IsNumeral digits) : Denotes ('+' :: digits) (decimal digits)
  | minus {digits : List Char} (h : IsNumeral digits) : Denotes ('-' :: digits) (-decimal digits)

theorem digitsValue_eq_decimal (digits : List Char) : digitsValue digits = decimal digits := by
  induction digits using List.reverseRecOn with
  | nil => rfl
  | append_singleton digits c ih =>
    have hvalue : digitsValue (digits ++ [c]) = digitsValue digits * 10 + digitValue c := by
      simp [digitsValue]
    rw [hvalue, ih, decimal, decimal, List.reverse_append, List.reverse_singleton,
      List.singleton_append, List.map_cons, Nat.ofDigits_cons]
    omega

theorem natural?_eq_some_iff {digits : List Char} {n : ℕ} :
    natural? digits = some n ↔ IsNumeral digits ∧ n = decimal digits := by
  have hnumeral : (digits.isEmpty || !digits.all Char.isDigit) = true ↔ ¬IsNumeral digits := by
    simp [IsNumeral, imp_iff_not_or]
  rw [natural?, digitsValue_eq_decimal]
  split
  · rename_i h
    simp [hnumeral.1 h]
  · rename_i h
    simp [not_not.1 (mt hnumeral.2 h), eq_comm]

theorem splitSign_of_numeral {digits : List Char} (h : IsNumeral digits) :
    splitSign digits = (false, digits) := by
  obtain ⟨hne, hdigits⟩ := h
  obtain ⟨c, rest, rfl⟩ := List.exists_cons_of_ne_nil hne
  have hc : c.isDigit = true := hdigits c List.mem_cons_self
  rw [splitSign]
  · rintro _ ⟨⟩
    exact absurd hc (by decide)
  · rintro _ ⟨⟩
    exact absurd hc (by decide)

/-- A text denotes an integer if it is a numeral behind its sign, whose number is taken with it. -/
theorem denotes_iff {text : List Char} {z : ℤ} :
    Denotes text z ↔ IsNumeral (splitSign text).2 ∧
      z = if (splitSign text).1 then -(decimal (splitSign text).2 : ℤ)
        else decimal (splitSign text).2 := by
  constructor
  · rintro (h | h | h)
    · rw [splitSign_of_numeral h]
      exact ⟨h, rfl⟩
    · exact ⟨h, rfl⟩
    · exact ⟨h, rfl⟩
  · rintro ⟨h, rfl⟩
    unfold splitSign at h ⊢
    split at h
    · exact .minus h
    · exact .plus h
    · exact .unsigned h

theorem not_blank_of_isDigit {c : Char} (h : c.isDigit = true) : isBlankChar c = false := by
  simp only [Char.isDigit, Bool.and_eq_true, decide_eq_true_eq] at h
  have hlow : 48 ≤ c.toNat := UInt32.le_iff_toNat_le.1 h.1
  have hhigh : c.toNat ≤ 57 := UInt32.le_iff_toNat_le.1 h.2
  simp only [isBlankChar, inRanges, blankRanges, List.any_cons, List.any_nil, Bool.or_false,
    Bool.or_eq_false_iff, Bool.and_eq_false_iff, decide_eq_false_iff_not]
  omega

namespace Denotes

variable {text : List Char} {z : ℤ}

theorem ne_nil (h : Denotes text z) : text ≠ [] := by
  rcases h with h | h | h
  · exact h.1
  · exact List.cons_ne_nil _ _
  · exact List.cons_ne_nil _ _

theorem not_blank (h : Denotes text z) : ∀ c ∈ text, isBlankChar c = false := by
  have hdigits {digits : List Char} (h : IsNumeral digits) : ∀ c ∈ digits, isBlankChar c = false :=
    fun c hc => not_blank_of_isDigit (h.2 c hc)
  rcases h with h | h | h
  · exact hdigits h
  · exact List.forall_mem_cons.2 ⟨by decide, hdigits h⟩
  · exact List.forall_mem_cons.2 ⟨by decide, hdigits h⟩

/-- Blanks around a text that denotes an integer are taken off, and nothing else is. -/
theorem trim_between (h : Denotes text z) {front back : List Char}
    (hfront : ∀ c ∈ front, isBlankChar c = true) (hback : ∀ c ∈ back, isBlankChar c = true) :
    trim (front ++ (text ++ back)) = text :=
  trim_append hfront hback h.ne_nil (fun c hc => h.not_blank c (List.mem_of_head? hc))
    fun c hc => h.not_blank c (List.mem_of_getLast? hc)

end Denotes

/-! ## Integer parts of floats -/

/-- A rational number without its fraction. -/
def towardZero (q : ℚ) : ℤ := if q < 0 then ⌈q⌉ else ⌊q⌋

theorem towardZero_of_nonneg {q : ℚ} (h : 0 ≤ q) : towardZero q = ⌊q⌋ := if_neg (not_lt.2 h)

theorem towardZero_neg_of_nonneg {q : ℚ} (h : 0 ≤ q) : towardZero (-q) = -⌊q⌋ := by
  rcases h.eq_or_lt with rfl | h
  · simp [towardZero]
  · rw [towardZero, if_pos (neg_lt_zero.2 h), Int.ceil_neg]

namespace Binary64

/-- The integer part of a number is its exact value without the fraction. -/
theorem trunc_eq (x : Binary64) : x.trunc = towardZero x.value := by
  have hmagnitude : 0 ≤ (x.mantissa : ℚ) * 2 ^ x.exponent := by positivity
  have hwhole : (x.ratio.1 : ℤ) / x.ratio.2 = ⌊(x.mantissa : ℚ) * 2 ^ x.exponent⌋ := by
    rw [← div_ratio]
    exact (Rat.floor_intCast_div_natCast x.ratio.1 x.ratio.2).symm
  rw [trunc, value, hwhole]
  by_cases hneg : x.negative = true
  · rw [if_pos hneg, if_pos hneg, neg_one_mul, towardZero_neg_of_nonneg hmagnitude]
  · rw [if_neg hneg, if_neg hneg, one_mul, towardZero_of_nonneg hmagnitude]

end Binary64

/-! ## Integers -/

/--
The value stands for the integer. A text has it between blanks, and a float has it as its exact
value without the fraction.
-/
inductive Json.StandsFor : Json → ℤ → Prop
  | integer {z : ℤ} {h : -0x8000000000000000 ≤ z ∧ z < 0x10000000000000000} :
      Json.StandsFor (.num (.int z h)) z
  | text {s : String} {front text back : List Char} {z : ℤ}
      (hs : s.toList = front ++ (text ++ back)) (hfront : ∀ c ∈ front, isBlankChar c = true)
      (hback : ∀ c ∈ back, isBlankChar c = true) (h : Denotes text z)
      (hz : -2 ^ 63 ≤ z ∧ z < 2 ^ 64) : Json.StandsFor (.str s) z
  | float {x : Binary64} {z : ℤ} (h : towardZero x.value = z) (hz : -2 ^ 63 ≤ z ∧ z < 2 ^ 63) :
      Json.StandsFor (.num (.float x)) z

theorem Number.ofInt?_eq_some_iff {z : ℤ} {n : Number} :
    ofInt? z = some n ↔ ∃ h, n = .int z h := by
  unfold ofInt?
  split
  · rename_i h
    simp [h, eq_comm]
  · rename_i h
    simp [h]

namespace Coercion

theorem orExpected_eq_ok {expected : Expectation} {v : Option Json} {out : Json} :
    orExpected expected v = .ok out ↔ v = some out := by
  cases v <;> simp [orExpected]

theorem orExpected_eq_error {expected e : Expectation} {v : Option Json}
    (h : orExpected expected v = .error e) : e = expected := by
  cases v with
  | none => exact (Except.error.inj h).symm
  | some v => cases h

theorem integerOfText?_eq_some_iff {text : List Char} {n : Number} :
    integerOfText? text = some n ↔ ∃ z h, Denotes text z ∧ n = .int z h := by
  simp only [denotes_iff, integerOfText?]
  cases h : natural? (splitSign text).2 with
  | none =>
    have hn : ¬IsNumeral (splitSign text).2 := fun hn => by
      rw [natural?_eq_some_iff.2 ⟨hn, rfl⟩] at h
      cases h
    simp [hn]
  | some m =>
    obtain ⟨hn, rfl⟩ := natural?_eq_some_iff.1 h
    simp [hn, Number.ofInt?_eq_some_iff]

theorem truncate?_eq_some_iff {x : Binary64} {n : Number} :
    truncate? x = some n ↔
      towardZero x.value < 2 ^ 63 ∧ ∃ h, n = .int (towardZero x.value) h := by
  rw [truncate?, x.trunc_eq]
  split
  · rename_i h
    simp [h, Number.ofInt?_eq_some_iff]
  · rename_i h
    simp [h]

end Coercion

open Coercion in
/-- A value is taken as an integer if it stands for one, and comes out as that integer. -/
theorem Kind.coerce_integer_eq_ok {value out : Json} :
    Kind.integer.coerce value = .ok out ↔ ∃ z h, value.StandsFor z ∧ out = .num (.int z h) := by
  have other (hcoerce : ∀ out, Kind.integer.coerce value ≠ .ok out)
      (hstands : ∀ z, ¬value.StandsFor z) :
      Kind.integer.coerce value = .ok out ↔ ∃ z h, value.StandsFor z ∧ out = .num (.int z h) :=
    iff_of_false (hcoerce out) fun ⟨z, _, h, _⟩ => hstands z h
  match value with
  | .num (.int z h) =>
    rw [coerce]
    constructor
    · intro heq
      exact ⟨z, h, .integer, (Except.ok.inj heq).symm⟩
    · rintro ⟨_, _, ⟨⟩, rfl⟩
      rfl
  | .num (.float x) =>
    simp only [coerce, orExpected_eq_ok, Option.map_eq_some_iff, truncate?_eq_some_iff]
    constructor
    · rintro ⟨_, ⟨hz, h, rfl⟩, rfl⟩
      exact ⟨_, h, .float rfl ⟨by omega, hz⟩, rfl⟩
    · rintro ⟨_, h, hstands, rfl⟩
      cases hstands with
      | float hx hz =>
        subst hx
        exact ⟨_, ⟨hz.2, h, rfl⟩, rfl⟩
  | .str s =>
    simp only [coerce, orExpected_eq_ok, Option.map_eq_some_iff, integerOfText?_eq_some_iff]
    constructor
    · rintro ⟨_, ⟨z, h, hdenotes, rfl⟩, rfl⟩
      obtain ⟨trail, htext, htrail⟩ := exists_trim s.toList
      exact ⟨z, h, .text htext (forall_mem_takeWhile_blank _) htrail hdenotes (by omega), rfl⟩
    · rintro ⟨z, h, hstands, rfl⟩
      cases hstands with
      | text hs hfront hback hdenotes =>
        rw [hs, hdenotes.trim_between hfront hback]
        exact ⟨_, ⟨z, h, hdenotes, rfl⟩, rfl⟩
  | .null => exact other nofun nofun
  | .bool _ => exact other nofun nofun
  | .arr _ => exact other nofun nofun
  | .obj _ => exact other nofun nofun

open Coercion in
/-- What is not taken as an integer is refused as no integer. -/
theorem Kind.eq_integer_of_coerce_eq_error {value : Json} {e : Expectation}
    (h : Kind.integer.coerce value = .error e) : e = .integer := by
  match value with
  | .num (.int _ _) => cases h
  | .num (.float _) => exact orExpected_eq_error h
  | .str _ => exact orExpected_eq_error h
  | .null => exact (Except.error.inj h).symm
  | .bool _ => exact (Except.error.inj h).symm
  | .arr _ => exact (Except.error.inj h).symm
  | .obj _ => exact (Except.error.inj h).symm

/-! ## Forms of kinds -/

/-- The value is in the form of the kind, which is not an opaque one. -/
inductive Kind.Form : Kind → Json → Prop
  | string {s : String} : Kind.Form .string (.str s)
  | dateTime {s : String} : Kind.Form .dateTime (.str s)
  | date {s : String} : Kind.Form .date (.str s)
  | integer {z : ℤ} {h : -0x8000000000000000 ≤ z ∧ z < 0x10000000000000000} :
      Kind.Form .integer (.num (.int z h))
  | number {n : Number} : Kind.Form .number (.num n)
  | boolean {b : Bool} : Kind.Form .boolean (.bool b)

namespace Kind

variable {kind : Kind} {value out : Json}

theorem Form.ne_null (h : kind.Form value) : value ≠ .null := by
  rintro rfl
  cases h

/-- A value in the form of a kind is of the type that the schema of the kind asks for. -/
theorem Form.hasType (h : kind.Form value) : value.hasType kind.schemaType = true := by
  cases h <;> rfl

theorem coerce_of_form (h : kind.Form value) : kind.coerce value = .ok value := by
  cases h <;> rfl

open Coercion in
/-- Coercion to a kind that is not opaque gives a value in the form of the kind. -/
theorem form_of_coerce (hk : kind.isOpaque = false) (h : kind.coerce value = .ok out) :
    kind.Form out := by
  cases kind with
  | string =>
    match value with
    | .str _ => exact Except.ok.inj h ▸ .string
    | .num _ => exact Except.ok.inj h ▸ .string
    | .bool _ => exact Except.ok.inj h ▸ .string
    | .null | .arr _ | .obj _ => cases h
  | integer =>
    obtain ⟨z, _, -, rfl⟩ := coerce_integer_eq_ok.1 h
    exact .integer
  | number =>
    match value with
    | .num _ => exact Except.ok.inj h ▸ .number
    | .str s =>
      rw [coerce, orExpected_eq_ok] at h
      obtain ⟨x, -, rfl⟩ := Option.map_eq_some_iff.1 h
      exact .number
    | .null | .bool _ | .arr _ | .obj _ => cases h
  | boolean =>
    rw [coerce] at h
    exact Except.ok.inj h ▸ .boolean
  | dateTime =>
    match value with
    | .str _ => exact Except.ok.inj h ▸ .dateTime
    | .null | .bool _ | .num _ | .arr _ | .obj _ => cases h
  | date =>
    match value with
    | .str _ => exact Except.ok.inj h ▸ .date
    | .null | .bool _ | .num _ | .arr _ | .obj _ => cases h
  | raw => cases hk
  | object => cases hk

end Kind

namespace Marshal

variable {r : Registry} {skipNone : Bool} {field : Field} {kind : Kind} {place : Pointer}
  {value out : Json}

theorem coerce_eq_ok : coerce kind place value = .ok out ↔ kind.coerce value = .ok out :=
  mapError_eq_ok

theorem absent_of_scalar (h : field.shape = .scalar kind) :
    absent field place = match field.default with
      | some value => coerce kind place value
      | none => .ok .null := by
  unfold absent
  rw [h]
  cases field.default <;> rfl

/-- A field of a kind that is not opaque coerces its values. -/
theorem fieldValue_of_not_isOpaque (hv : value ≠ .null) (h : field.shape = .scalar kind)
    (hk : kind.isOpaque = false) :
    fieldValue r skipNone field place value = coerce kind place value := by
  rw [fieldValue_scalar hv h, scalar, hk]
  rfl

/--
**Integers are coerced exactly**: a field of integers takes a value just if the value stands for an
integer, and gives that integer. Any other value is refused as no integer. A null counts as missing,
and what comes out for a missing value is the default, coerced in the same way.
-/
theorem fieldValue_integer (h : field.shape = .scalar .integer) (value : Json) :
    (value ≠ .null →
      fieldValue r skipNone field place value = coerce .integer place value) ∧
    (fieldValue r skipNone field place .null = match field.default with
      | some value => coerce .integer place value
      | none => .ok .null) ∧
    (∀ out, coerce .integer place value = .ok out ↔
      ∃ z h, value.StandsFor z ∧ out = .num (.int z h)) ∧
    ((∀ z, ¬value.StandsFor z) →
      coerce .integer place value = .error (.invalidValue place .integer value.type)) := by
  refine ⟨fun hv => fieldValue_of_not_isOpaque hv h rfl, ?_, fun out => ?_, fun hstands => ?_⟩
  · rw [fieldValue_null, absent_of_scalar h]
  · rw [coerce_eq_ok, Kind.coerce_integer_eq_ok]
  · cases hc : Kind.integer.coerce value with
    | ok out =>
      obtain ⟨z, _, hz, -⟩ := Kind.coerce_integer_eq_ok.1 hc
      exact absurd hz (hstands z)
    | error e =>
      rw [coerce, hc, Kind.eq_integer_of_coerce_eq_error hc]
      rfl

/-- The greatest word without a sign, written with a plus sign between blanks, is a counter. -/
theorem fieldValue_integer_greatest :
    let field : Field := .ofKind .integer
    let value : Json := .str "\t+018446744073709551615 "
    let greatest : Json := .num (.int 0xFFFFFFFFFFFFFFFF (by decide))
    field.shape = .scalar .integer ∧ value.StandsFor 0xFFFFFFFFFFFFFFFF ∧
      fieldValue .empty false field .root value = .ok greatest := by
  intro field value greatest
  have hshape : field.shape = .scalar .integer := rfl
  have hnumeral : IsNumeral "018446744073709551615".toList :=
    ⟨by decide, List.all_eq_true.1 (by decide)⟩
  have hdecimal : (0xFFFFFFFFFFFFFFFF : ℤ) = decimal "018446744073709551615".toList := by
    decide +kernel
  have hdenotes : Denotes "+018446744073709551615".toList 0xFFFFFFFFFFFFFFFF := by
    rw [hdecimal]
    exact .plus hnumeral
  have hbetween : "\t+018446744073709551615 ".toList =
      ['\t'] ++ ("+018446744073709551615".toList ++ [' ']) := by
    decide +kernel
  have hfront : ∀ c ∈ ['\t'], isBlankChar c = true := List.forall_mem_singleton.2 (by decide)
  have hback : ∀ c ∈ [' '], isBlankChar c = true := List.forall_mem_singleton.2 (by decide)
  have hstands : value.StandsFor 0xFFFFFFFFFFFFFFFF :=
    .text hbetween hfront hback hdenotes (by decide)
  obtain ⟨hfield, -, hcoerce, -⟩ := @fieldValue_integer .empty false field .root hshape value
  refine ⟨hshape, hstands, ?_⟩
  rw [hfield nofun]
  exact (hcoerce greatest).2 ⟨_, _, hstands, rfl⟩

/-- Not all that stands for no integer is refused: a null comes out of a field without a default. -/
theorem fieldValue_integer_null :
    ¬∀ (r : Registry) (field : Field) (value : Json), field.shape = .scalar .integer →
      (∀ z, ¬value.StandsFor z) →
      fieldValue r false field .root value = .error (.invalidValue .root .integer value.type) := by
  intro hrefused
  have herror := hrefused .empty (.ofKind .integer) .null rfl nofun
  rw [fieldValue_null, absent_of_default rfl] at herror
  cases herror

end Marshal

end FieldMask
