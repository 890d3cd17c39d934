import FieldMask.Document
import FieldMask.Json.Printer
import FieldMask.Proofs.Json.Distinct
import FieldMask.Proofs.Pointer
import Mathlib

/-!
# Values read back from their text

What the compact printer writes, the reader reads as the same value (`read_compact`), if the value
has no floats, writes no key twice and opens no more containers than the reader allows. Behind a
value there must not be anything that goes on with a number (`Ends`), and the proof follows the
value: each way to write one is read back if its parts are.
-/

namespace FieldMask

namespace Json

/-! ## Strings -/

theorem hexValue?_hexDigit {n : Nat} (h : n < 16) : hexValue? (hexDigit n) = some n := by
  revert n
  decide

/-- The escape of a control character. -/
theorem readEscape_unit {n : Nat} (h : n < 0x20) (rest : List Char) :
    readEscape ('u' :: '0' :: '0' :: hexDigit (n / 16) :: hexDigit (n % 16) :: rest)
      = .ok (Char.ofNat n, rest) := by
  have hzero : hexValue? '0' = some 0 := rfl
  have hhigh : hexValue? (hexDigit (n / 16)) = some (n / 16) := hexValue?_hexDigit (by omega)
  have hlow : hexValue? (hexDigit (n % 16)) = some (n % 16) := hexValue?_hexDigit (by omega)
  have hunit : readUnit ('0' :: '0' :: hexDigit (n / 16) :: hexDigit (n % 16) :: rest)
      = .ok (n, rest) := by
    simp only [readUnit, hzero, hhigh, hlow]
    congr 2
    omega
  simp only [readEscape, hunit, bind, Except.bind]
  rw [if_neg (by simp; omega), if_neg (by simp; omega)]

variable {done : List Char}

theorem readString_escape {text rest : List Char} {c : Char} (h : readEscape text = .ok (c, rest)) :
    readString done ('\\' :: text) = readString (c :: done) rest := by
  rw [readString]
  split
  · rename_i e he
    rw [h] at he
    cases he
  · rename_i he
    rw [h] at he
    cases he
    rfl

theorem readString_plain {c : Char} (hquote : c ≠ '"') (hslash : c ≠ '\\') (hc : ¬c.val < 0x20)
    (rest : List Char) : readString done (c :: rest) = readString (c :: done) rest := by
  rw [readString, if_neg hc]
  · exact hquote
  · exact hslash

/-- A character is read back from how it is written. -/
theorem readString_escapeChar (c : Char) (rest : List Char) :
    readString done (escapeChar c ++ rest) = readString (c :: done) rest := by
  unfold escapeChar
  split_ifs with hquote hslash hc
  · subst hquote
    exact readString_escape rfl
  · subst hslash
    exact readString_escape rfl
  · split
    case h_6 =>
      refine readString_escape ((readEscape_unit ?_ rest).trans ?_)
      · exact hc
      · rw [Char.ofNat_toNat]
    all_goals exact readString_escape rfl
  · exact readString_plain hquote hslash hc rest

theorem readString_escaped (s rest : List Char) :
    readString done (s.flatMap escapeChar ++ '"' :: rest)
      = .ok (String.ofList (done.reverse ++ s), rest) := by
  induction s generalizing done with
  | nil => rw [List.append_nil]; exact readString.eq_2 ..
  | cons c s ih =>
    rw [List.flatMap_cons, List.append_assoc, readString_escapeChar, ih, List.reverse_cons,
      List.append_assoc]
    rfl

theorem readString_quoted (s : String) (rest : List Char) :
    readString [] (s.toList.flatMap escapeChar ++ '"' :: rest) = .ok (s, rest) := by
  rw [readString_escaped, List.reverse_nil, List.nil_append, String.ofList_toList]

theorem toList_quote (s : String) :
    (quote s).toList = '"' :: (s.toList.flatMap escapeChar ++ ['"']) := by
  simp [quote]

/-! ## Integers -/

/-- The text ends, or goes on with a separator or a closing bracket. -/
def Ends (rest : List Char) : Prop := ∀ c ∈ rest.head?, c = ',' ∨ c = ']' ∨ c = '\x7d'

variable {rest : List Char}

theorem Ends.not_digit (h : Ends rest) : ∀ c ∈ rest.head?, c.isDigit = false := by
  intro c hc
  rcases h c hc with rfl | rfl | rfl <;> rfl

theorem ne_of_isDigit {c d : Char} (hc : c.isDigit = true) (hd : d.isDigit = false) : c ≠ d := by
  rintro rfl
  rw [hd] at hc
  cases hc

theorem exists_toDigits (n : Nat) :
    ∃ c digits, Nat.toDigits 10 n = c :: digits ∧ c.isDigit = true := by
  have hpos : 0 < (Nat.toDigits 10 n).length := Nat.length_toDigits_pos
  obtain ⟨c, digits, h⟩ := List.exists_cons_of_length_pos hpos
  exact ⟨c, digits, h,
    Nat.isDigit_of_mem_toDigits (by decide) (by decide) (h ▸ List.mem_cons_self)⟩

theorem le_foldl_digits (digits : List Char) (n : Nat) :
    n ≤ digits.foldl (fun n c => n * 10 + digitValue c) n := by
  induction digits generalizing n with
  | nil => exact Nat.le_refl n
  | cons d digits ih => exact Nat.le_trans (by omega) (ih (n * 10 + digitValue d))

/-- Digits whose number 64 bits hold are all collected. -/
theorem collectDigits_eq {digits : List Char} {n : Nat}
    (h : digits.foldl (fun n c => n * 10 + digitValue c) n < 0x10000000000000000) :
    collectDigits n digits = (digits.foldl (fun n c => n * 10 + digitValue c) n, 0) := by
  induction digits generalizing n with
  | nil => rfl
  | cons d digits ih =>
    rw [List.foldl_cons] at h
    have hle := le_foldl_digits digits (n * 10 + digitValue d)
    rw [collectDigits, if_neg (by omega), ih h, List.foldl_cons]

/-- Only zero is written with a zero in front. -/
theorem head_toDigits {n : Nat} (hn : n ≠ 0) {c : Char} {digits : List Char}
    (h : Nat.toDigits 10 n = c :: digits) : c ≠ '0' := by
  induction n using Nat.strongRecOn generalizing digits with
  | ind n ih =>
    by_cases hlt : n < 10
    · rw [Nat.toDigits_of_lt_base hlt] at h
      obtain ⟨rfl, -⟩ := List.cons.inj h
      interval_cases n <;> first | exact absurd rfl hn | decide
    · rw [Nat.toDigits_of_base_le (by decide) (by omega)] at h
      obtain ⟨d, front, hd, -⟩ := exists_toDigits (n / 10)
      rw [hd] at h
      obtain ⟨rfl, -⟩ := List.cons.inj h
      exact ih (n / 10) (by omega) (by omega) hd

theorem readTail_integer (negative : Bool) (n : Nat) (h : Ends rest) :
    readTail negative n 0 rest = integerOf negative n rest := by
  cases rest with
  | nil => rfl
  | cons c rest =>
    unfold readTail
    rcases h c rfl with rfl | rfl | rfl <;> rfl

/-- The digits of a number are told from what is behind them. -/
theorem span_digits {digits : List Char} (hd : ∀ c ∈ digits, c.isDigit = true) (h : Ends rest) :
    (digits ++ rest).takeWhile Char.isDigit = digits ∧
      (digits ++ rest).dropWhile Char.isDigit = rest := by
  rw [List.takeWhile_append_of_pos hd, List.dropWhile_append_of_pos hd]
  cases rest with
  | nil => exact ⟨List.append_nil _, rfl⟩
  | cons d rest =>
    have hnot : ¬d.isDigit = true := by
      rw [h.not_digit d rfl]
      exact Bool.false_ne_true
    rw [List.takeWhile_cons_of_neg hnot, List.dropWhile_cons_of_neg hnot]
    exact ⟨List.append_nil _, rfl⟩

theorem collectDigits_toDigits {n : Nat} (hn : n < 0x10000000000000000) :
    collectDigits 0 (Nat.toDigits 10 n) = (n, 0) := by
  have hvalue : (Nat.toDigits 10 n).foldl (fun n c => n * 10 + digitValue c) 0 = n :=
    digitsValue_toDigits n
  rw [collectDigits_eq (by rw [hvalue]; exact hn), hvalue]

theorem readNumber_toDigits (negative : Bool) {n : Nat} (hn : n < 0x10000000000000000)
    (h : Ends rest) :
    readNumber negative (Nat.toDigits 10 n ++ rest) = integerOf negative n rest := by
  by_cases hzero : n = 0
  · subst hzero
    cases rest with
    | nil => exact readTail_integer negative 0 h
    | cons d rest =>
      show (if d.isDigit then _ else _) = _
      rw [h.not_digit d rfl, if_neg Bool.false_ne_true]
      exact readTail_integer negative 0 h
  · have hdigits : ∀ c ∈ Nat.toDigits 10 n, c.isDigit = true := fun c hc =>
      Nat.isDigit_of_mem_toDigits (by decide) (by decide) hc
    obtain ⟨htake, hdrop⟩ := span_digits hdigits h
    have hcollect := collectDigits_toDigits hn
    obtain ⟨c, digits, hd, hc⟩ := exists_toDigits n
    rw [hd] at htake hdrop hcollect
    rw [hd]
    rw [List.cons_append] at htake hdrop ⊢
    unfold readNumber
    dsimp only
    rw [if_neg (head_toDigits hzero hd), if_pos hc, htake, hdrop, hcollect]
    exact readTail_integer negative n h

/-!
## Steps of the reader

The reader matches on what is behind the blanks together with a proof of that, so its steps are
opened by `split`, and the ways that they do not take are closed by `cases` on the equation.
-/

theorem skipBlanks_cons {c : Char} (hc : isBlank c = false) (rest : List Char) :
    skipBlanks (c :: rest) = c :: rest :=
  List.dropWhile_cons_of_neg (by rw [hc]; exact Bool.false_ne_true)

/-- The text begins with the value, with `depth` more containers allowed. -/
def Reads (depth : Nat) (text : List Char) (v : Json) (rest : List Char) : Prop :=
  ∃ r, readValue depth text = .ok r ∧ r.value = v ∧ r.rest = rest

/-- The text goes on to the end of an array, whose items up to here are `done`, reversed. -/
def ReadsItems (depth : Nat) (first : Bool) (done : List Json) (text : List Char)
    (items : List Json) (rest : List Char) : Prop :=
  ∃ r, readItems depth first done text = .ok r ∧ r.value = items ∧ r.rest = rest

/-- The text goes on to the end of an object, whose members up to here are `done`. -/
def ReadsMembers (depth : Nat) (first : Bool) (done : Members) (text : List Char)
    (members : Members) (rest : List Char) : Prop :=
  ∃ r, readMembers depth first done text = .ok r ∧ r.value = members ∧ r.rest = rest

section Steps

variable {depth : Nat} {first : Bool} {c : Char} {text : List Char} {v : Json}

theorem reads_scalar (hc : isBlank c = false) (harr : c ≠ '[') (hobj : c ≠ '\x7b')
    (h : readScalar c text = .ok (v, rest)) : Reads depth (c :: text) v rest := by
  unfold Reads
  rw [readValue]
  split
  · rename_i hs
    rw [skipBlanks_cons hc] at hs
    cases hs
  · rename_i hs
    rw [skipBlanks_cons hc] at hs
    cases hs
    simp only [if_neg harr, if_neg hobj]
    split
    · rename_i he
      rw [h] at he
      cases he
    · rename_i hv
      rw [h] at hv
      cases hv
      exact ⟨_, rfl, rfl, rfl⟩

theorem reads_arr {items : List Json} (h : ReadsItems depth true [] text items rest) :
    Reads (depth + 1) ('[' :: text) (.arr items) rest := by
  obtain ⟨r, h, rfl, rfl⟩ := h
  unfold Reads
  rw [readValue]
  split
  · rename_i hs
    cases hs
  · rename_i hs
    cases hs
    rw [if_pos rfl]
    dsimp only
    rw [h]
    exact ⟨_, rfl, rfl, rfl⟩

theorem reads_obj {members : Members} (h : ReadsMembers depth true [] text members rest) :
    Reads (depth + 1) ('\x7b' :: text) (.obj members) rest := by
  obtain ⟨r, h, rfl, rfl⟩ := h
  unfold Reads
  rw [readValue]
  split
  · rename_i hs
    cases hs
  · rename_i hs
    cases hs
    rw [if_neg (by decide), if_pos rfl]
    dsimp only
    rw [h]
    exact ⟨_, rfl, rfl, rfl⟩

theorem readsItems_end {done : List Json} :
    ReadsItems depth first done (']' :: rest) done.reverse rest := by
  have hnext : ∃ h, nextItem first (']' :: rest) = .ok (.done rest h) := by
    unfold nextItem
    split
    · rename_i hs
      cases hs
    · rename_i hs
      cases hs
      exact ⟨by simp, if_pos rfl⟩
  obtain ⟨h, hnext⟩ := hnext
  unfold ReadsItems
  rw [readItems, hnext]
  exact ⟨_, rfl, rfl, rfl⟩

theorem readsMembers_end {done : Members} :
    ReadsMembers depth first done ('\x7d' :: rest) done rest := by
  have hnext : ∃ h, nextMember first ('\x7d' :: rest) = .ok (.done rest h) := by
    unfold nextMember
    split
    · rename_i hs
      cases hs
    · rename_i hs
      cases hs
      exact ⟨by simp, if_pos rfl⟩
  obtain ⟨h, hnext⟩ := hnext
  unfold ReadsMembers
  rw [readMembers, hnext]
  exact ⟨_, rfl, rfl, rfl⟩

/-- What stands before an item or member: nothing if it is the first, and a comma if it is not. -/
def lead (first : Bool) : List Char := if first then [] else [',']

theorem lead_true (text : List Char) : lead true ++ text = text := rfl

theorem nextItem_more (first : Bool) (hc : isBlank c = false) (hend : c ≠ ']') :
    ∃ h, nextItem first (lead first ++ c :: text) = .ok (.more (c :: text) h) := by
  cases first with
  | true =>
    unfold nextItem
    split
    · rename_i hs
      rw [lead, if_pos rfl, List.nil_append, skipBlanks_cons hc] at hs
      cases hs
    · rename_i hs
      obtain ⟨rfl, rfl⟩ := List.cons.inj ((skipBlanks_cons hc text).symm.trans hs)
      rw [if_neg hend, if_pos rfl]
      exact ⟨by simp, rfl⟩
  | false =>
    unfold nextItem
    split
    · rename_i hs
      cases hs
    · rename_i hs
      cases hs
      rw [if_neg (by decide), if_neg Bool.false_ne_true, if_pos rfl]
      split
      · rename_i hs
        rw [List.append_eq, List.nil_append, skipBlanks_cons hc] at hs
        cases hs
      · rename_i hs
        obtain ⟨rfl, rfl⟩ := List.cons.inj ((skipBlanks_cons hc text).symm.trans hs)
        rw [if_neg hend]
        exact ⟨by simp, rfl⟩

theorem nextMember_more (first : Bool) (text : List Char) :
    ∃ h, nextMember first (lead first ++ '"' :: text) = .ok (.more text h) := by
  have hle : text.length ≤ (lead first ++ '"' :: text).length := by
    rw [List.length_append, List.length_cons]
    omega
  cases first with
  | true =>
    unfold nextMember
    split
    · rename_i hs
      cases hs
    · rename_i hs
      cases hs
      rw [if_neg (by decide), if_pos rfl, if_pos rfl]
      exact ⟨hle, rfl⟩
  | false =>
    unfold nextMember
    split
    · rename_i hs
      cases hs
    · rename_i hs
      cases hs
      rw [if_neg (by decide), if_neg Bool.false_ne_true, if_pos rfl]
      split
      · rename_i hs
        cases hs
      · rename_i hs
        cases hs
        rw [if_pos rfl]
        exact ⟨hle, rfl⟩

theorem readsItems_more {done items : List Json} {more : List Char} (hc : isBlank c = false)
    (hend : c ≠ ']') (hv : Reads depth (c :: text) v more)
    (h : ReadsItems depth false (v :: done) more items rest) :
    ReadsItems depth first done (lead first ++ c :: text) items rest := by
  obtain ⟨x, hv, rfl, rfl⟩ := hv
  obtain ⟨r, h, rfl, rfl⟩ := h
  obtain ⟨hle, hnext⟩ := nextItem_more first hc hend
  unfold ReadsItems
  rw [readItems, hnext]
  dsimp only
  rw [hv]
  dsimp only
  rw [h]
  exact ⟨_, rfl, rfl, rfl⟩

theorem readsMembers_more {done members : Members} {key : String} {more : List Char}
    (hkey : readString [] text = .ok (key, ':' :: more)) {behind : List Char}
    (hv : Reads depth more v behind)
    (h : ReadsMembers depth false (Keyed.put key v done) behind members rest) :
    ReadsMembers depth first done (lead first ++ '"' :: text) members rest := by
  obtain ⟨x, hv, rfl, rfl⟩ := hv
  obtain ⟨r, h, rfl, rfl⟩ := h
  obtain ⟨hle, hnext⟩ := nextMember_more first text
  unfold ReadsMembers
  rw [readMembers, hnext]
  dsimp only
  split
  · rename_i he
    rw [hkey] at he
    cases he
  · rename_i hk
    rw [hkey] at hk
    cases hk
    split
    · rename_i he
      cases he
    · rename_i hcolon
      obtain rfl := Except.ok.inj hcolon
      rw [hv]
      dsimp only
      rw [h]
      exact ⟨_, rfl, rfl, rfl⟩

end Steps

/-! ## Values that are read back -/

/--
The compact text of the value can be read with `depth` containers allowed: its numbers are
integers, no object in it writes a key twice, and no more than `depth` containers are in each other.
-/
inductive Readable : Nat → Json → Prop
  | null {depth : Nat} : Readable depth .null
  | bool {depth : Nat} (b : Bool) : Readable depth (.bool b)
  | int {depth : Nat} (z : Int) (h : -0x8000000000000000 ≤ z ∧ z < 0x10000000000000000) :
      Readable depth (.num (.int z h))
  | str {depth : Nat} (s : String) : Readable depth (.str s)
  | arr {depth : Nat} {items : List Json} (h : ∀ x ∈ items, Readable depth x) :
      Readable (depth + 1) (.arr items)
  | obj {depth : Nat} {members : Members} (hn : (Keyed.keys members).Nodup)
      (h : ∀ m ∈ members, Readable depth m.2) : Readable (depth + 1) (.obj members)

section Parts

variable {depth : Nat}

@[simp] theorem readable_str (s : String) : Readable depth (.str s) := .str s

@[simp] theorem readable_arr_iff {items : List Json} :
    Readable (depth + 1) (.arr items) ↔ ∀ x ∈ items, Readable depth x := by
  refine ⟨fun h => ?_, .arr⟩
  cases h with
  | arr h => exact h

@[simp] theorem readable_obj_iff {members : Members} :
    Readable (depth + 1) (.obj members) ↔
      (Keyed.keys members).Nodup ∧ ∀ m ∈ members, Readable depth m.2 := by
  refine ⟨fun h => ?_, fun h => .obj h.1 h.2⟩
  cases h with
  | obj hn h => exact ⟨hn, h⟩

end Parts

/-- The value is read from its text, which begins with no blank and no closing bracket. -/
structure ReadsBack (depth : Nat) (v : Json) : Prop where
  head : ∃ c text, v.compact.toList = c :: text ∧ isBlank c = false ∧ c ≠ ']'
  reads : ∀ rest, Ends rest → Reads depth (v.compact.toList ++ rest) v rest

section Values

variable {depth : Nat} {v : Json}

/-! ### Scalars -/

/-- No blank, and no bracket of a container. -/
def IsInk (c : Char) : Prop := isBlank c = false ∧ c ≠ ']' ∧ c ≠ '[' ∧ c ≠ '\x7b'

instance (c : Char) : Decidable (IsInk c) := inferInstanceAs (Decidable (_ ∧ _))

theorem isInk_of_isDigit {c : Char} (hc : c.isDigit = true) : IsInk c := by
  have hblank : isBlank c = false := by
    simp only [isBlank, Bool.or_eq_false_iff, beq_eq_false_iff_ne]
    exact ⟨⟨⟨ne_of_isDigit hc rfl, ne_of_isDigit hc rfl⟩, ne_of_isDigit hc rfl⟩,
      ne_of_isDigit hc rfl⟩
  exact ⟨hblank, ne_of_isDigit hc rfl, ne_of_isDigit hc rfl, ne_of_isDigit hc rfl⟩

/-- A value is read back as it is read behind the first character of its text. -/
theorem readsBack_scalar (c : Char) (text : List Char) (ht : v.compact.toList = c :: text)
    (hc : IsInk c) (h : ∀ rest, Ends rest → readScalar c (text ++ rest) = .ok (v, rest)) :
    ReadsBack depth v where
  head := ⟨c, text, ht, hc.1, hc.2.1⟩
  reads rest hrest := by
    rw [ht]
    exact reads_scalar hc.1 hc.2.2.1 hc.2.2.2 (h rest hrest)

theorem readsBack_null : ReadsBack depth .null :=
  readsBack_scalar 'n' ['u', 'l', 'l'] rfl (by decide) fun _ _ => rfl

theorem readsBack_bool (b : Bool) : ReadsBack depth (.bool b) := by
  cases b with
  | true => exact readsBack_scalar 't' ['r', 'u', 'e'] rfl (by decide) fun _ _ => rfl
  | false => exact readsBack_scalar 'f' ['a', 'l', 's', 'e'] rfl (by decide) fun _ _ => rfl

theorem readsBack_str (s : String) : ReadsBack depth (.str s) := by
  refine readsBack_scalar _ _ (toList_quote s) (by decide) fun rest _ => ?_
  rw [List.append_assoc, readScalar, if_pos rfl, List.singleton_append, readString_quoted]
  rfl

theorem readScalar_digit {c : Char} (hc : c.isDigit = true) (text : List Char) :
    readScalar c text = (do
      let (n, rest) ← readNumber false (c :: text)
      return (.num n, rest)) := by
  rw [readScalar, if_neg (ne_of_isDigit hc rfl), if_neg (ne_of_isDigit hc rfl), if_pos hc]

theorem readsBack_int {z : Int} (h : -0x8000000000000000 ≤ z ∧ z < 0x10000000000000000) :
    ReadsBack depth (.num (.int z h)) := by
  have hof : ∀ i : Int, i = z → Number.ofInt? i = some (.int z h) := by
    rintro i rfl
    exact dif_pos h
  by_cases hz : z < 0
  · have ht : (Json.num (.int z h)).compact.toList = '-' :: Nat.toDigits 10 z.natAbs := by
      show (Number.intText z).toList = _
      rw [Number.intText, String.toList_ofList, if_pos hz]
    refine readsBack_scalar _ _ ht (by decide) fun rest hrest => ?_
    rw [readScalar, if_neg (by decide), if_pos rfl, readNumber_toDigits true (by omega) hrest,
      integerOf, if_neg (by simp; omega), if_pos rfl, hof _ (by omega)]
    rfl
  · have ht : (Json.num (.int z h)).compact.toList = Nat.toDigits 10 z.natAbs := by
      show (Number.intText z).toList = _
      rw [Number.intText, String.toList_ofList, if_neg hz]
    obtain ⟨c, digits, hd, hc⟩ := exists_toDigits z.natAbs
    refine readsBack_scalar _ _ (ht.trans hd) (isInk_of_isDigit hc) fun rest hrest => ?_
    rw [readScalar_digit hc, ← List.cons_append, ← hd,
      readNumber_toDigits false (by omega) hrest, integerOf, if_neg (by simp),
      if_neg Bool.false_ne_true, hof _ (by omega)]
    rfl

/-! ### Containers -/

theorem toList_intercalate (s : String) (texts : List String) :
    (",".intercalate (s :: texts)).toList = s.toList ++ texts.flatMap fun t => ',' :: t.toList := by
  induction texts generalizing s with
  | nil => rw [String.intercalate_singleton, List.flatMap_nil, List.append_nil]
  | cons t texts ih =>
    rw [String.intercalate_cons_cons, String.toList_append, String.toList_append, ih,
      List.flatMap_cons, List.append_assoc]
    rfl

theorem compactItems_eq (items : List Json) : compactItems items = items.map compact := by
  induction items with
  | nil => rfl
  | cons x rest ih => rw [compactItems, ih, List.map_cons]

/-- The text of a member. -/
def memberText (m : String × Json) : String := quote m.1 ++ ":" ++ m.2.compact

theorem compactMembers_eq (members : Members) :
    compactMembers members = members.map memberText := by
  induction members with
  | nil => rfl
  | cons m rest ih =>
    obtain ⟨key, x⟩ := m
    rw [compactMembers, ih, List.map_cons]
    rfl

/-- The texts of more items, each behind a comma. -/
def moreItems (items : List Json) : List Char := items.flatMap fun x => ',' :: x.compact.toList

/-- The texts of more members, each behind a comma. -/
def moreMembers (members : Members) : List Char :=
  members.flatMap fun m => ',' :: (memberText m).toList

theorem toList_compact_arr (x : Json) (items : List Json) :
    (compact (.arr (x :: items))).toList
      = '[' :: (x.compact.toList ++ moreItems items ++ [']']) := by
  rw [compact, compactItems_eq, String.toList_append, String.toList_append, List.map_cons,
    toList_intercalate, List.flatMap_map]
  rfl

theorem toList_compact_obj (m : String × Json) (members : Members) :
    (compact (.obj (m :: members))).toList
      = '\x7b' :: ((memberText m).toList ++ moreMembers members ++ ['\x7d']) := by
  rw [compact, compactMembers_eq, String.toList_append, String.toList_append, List.map_cons,
    toList_intercalate, List.flatMap_map]
  rfl

theorem moreItems_cons (x : Json) (items : List Json) (text : List Char) :
    moreItems (x :: items) ++ text
      = lead false ++ (x.compact.toList ++ (moreItems items ++ text)) := by
  rw [moreItems, List.flatMap_cons, List.append_assoc]
  rfl

theorem moreMembers_cons (m : String × Json) (members : Members) (text : List Char) :
    moreMembers (m :: members) ++ text
      = lead false ++ ((memberText m).toList ++ (moreMembers members ++ text)) := by
  rw [moreMembers, List.flatMap_cons, List.append_assoc]
  rfl

theorem ends_moreItems (items : List Json) (rest : List Char) :
    Ends (moreItems items ++ ']' :: rest) := by
  intro c hc
  cases items with
  | nil => exact .inr (.inl (Option.some.inj hc).symm)
  | cons x items => exact .inl (Option.some.inj hc).symm

theorem ends_moreMembers (members : Members) (rest : List Char) :
    Ends (moreMembers members ++ '\x7d' :: rest) := by
  intro c hc
  cases members with
  | nil => exact .inr (.inr (Option.some.inj hc).symm)
  | cons m members => exact .inl (Option.some.inj hc).symm

/-- An item is read, and then the items behind it. -/
theorem readsItems_item (first : Bool) (done : List Json) {items : List Json} {more : List Char}
    {x : Json} (hx : ReadsBack depth x) (hmore : Ends more)
    (h : ReadsItems depth false (x :: done) more items rest) :
    ReadsItems depth first done (lead first ++ (x.compact.toList ++ more)) items rest := by
  obtain ⟨c, text, ht, hc, hend⟩ := hx.head
  have hreads := hx.reads more hmore
  rw [ht] at hreads ⊢
  exact readsItems_more hc hend hreads h

theorem readsItems_moreItems {items : List Json} (h : ∀ x ∈ items, ReadsBack depth x)
    (done : List Json) (rest : List Char) :
    ReadsItems depth false done (moreItems items ++ ']' :: rest) (done.reverse ++ items) rest := by
  induction items generalizing done with
  | nil =>
    rw [List.append_nil]
    exact readsItems_end
  | cons x items ih =>
    obtain ⟨hx, hitems⟩ := List.forall_mem_cons.1 h
    have hmore := ih hitems (x :: done)
    rw [List.reverse_cons, List.append_assoc] at hmore
    rw [moreItems_cons]
    exact readsItems_item false done hx (ends_moreItems items rest) hmore

theorem readsBack_arr {items : List Json} (h : ∀ x ∈ items, ReadsBack depth x) :
    ReadsBack (depth + 1) (.arr items) := by
  cases items with
  | nil => exact ⟨⟨'[', [']'], rfl, rfl, by decide⟩, fun rest _ => reads_arr readsItems_end⟩
  | cons x items =>
    obtain ⟨hx, hitems⟩ := List.forall_mem_cons.1 h
    refine ⟨⟨'[', _, toList_compact_arr x items, rfl, by decide⟩, fun rest _ => ?_⟩
    have hmore := readsItems_item true [] hx (ends_moreItems items rest)
      (readsItems_moreItems hitems [x] rest)
    rw [lead_true] at hmore
    rw [toList_compact_arr, List.cons_append, List.append_assoc, List.append_assoc]
    exact reads_arr hmore

/-- A member is read, and then the members behind it. -/
theorem readsMembers_member (first : Bool) (done : Members) {members : Members} {more : List Char}
    {m : String × Json} (hm : ReadsBack depth m.2) (hmore : Ends more)
    (h : ReadsMembers depth false (Keyed.put m.1 m.2 done) more members rest) :
    ReadsMembers depth first done (lead first ++ ((memberText m).toList ++ more)) members rest := by
  have ht : (memberText m).toList ++ more
      = '"' :: (m.1.toList.flatMap escapeChar ++ '"' :: ':' :: (m.2.compact.toList ++ more)) := by
    rw [memberText, String.toList_append, String.toList_append, toList_quote]
    simp
  rw [ht]
  exact readsMembers_more (readString_quoted _ _) (hm.reads more hmore) h

theorem readsMembers_moreMembers {members : Members} (h : ∀ m ∈ members, ReadsBack depth m.2)
    (done : Members) (rest : List Char) :
    ReadsMembers depth false done (moreMembers members ++ '\x7d' :: rest)
      (Keyed.putAll done members) rest := by
  induction members generalizing done with
  | nil => exact readsMembers_end
  | cons m members ih =>
    obtain ⟨hm, hmembers⟩ := List.forall_mem_cons.1 h
    rw [moreMembers_cons, Keyed.putAll_cons]
    exact readsMembers_member false done hm (ends_moreMembers members rest) (ih hmembers _)

theorem readsBack_obj {members : Members} (hn : (Keyed.keys members).Nodup)
    (h : ∀ m ∈ members, ReadsBack depth m.2) : ReadsBack (depth + 1) (.obj members) := by
  cases members with
  | nil =>
    exact ⟨⟨'\x7b', ['\x7d'], rfl, rfl, by decide⟩, fun rest _ => reads_obj readsMembers_end⟩
  | cons m members =>
    obtain ⟨hm, hmembers⟩ := List.forall_mem_cons.1 h
    refine ⟨⟨'\x7b', _, toList_compact_obj m members, rfl, by decide⟩, fun rest _ => ?_⟩
    have hmore := readsMembers_member true [] hm (ends_moreMembers members rest)
      (readsMembers_moreMembers hmembers _ rest)
    rw [← Keyed.putAll_cons, ← Keyed.ofPairs, Keyed.ofPairs_eq_self hn, lead_true] at hmore
    rw [toList_compact_obj, List.cons_append, List.append_assoc, List.append_assoc]
    exact reads_obj hmore

theorem Readable.readsBack (h : Readable depth v) : ReadsBack depth v := by
  induction h with
  | null => exact readsBack_null
  | bool b => exact readsBack_bool b
  | int z h => exact readsBack_int h
  | str s => exact readsBack_str s
  | arr _ ih => exact readsBack_arr ih
  | obj hn _ ih => exact readsBack_obj hn ih

end Values

/-- **A value without floats is read back from its compact text.** -/
theorem read_compact {v : Json} (h : Readable nestingLimit v) : read v.compact = .ok v := by
  have hreads := h.readsBack.reads [] (fun c hc => by cases hc)
  rw [List.append_nil] at hreads
  obtain ⟨r, hr, hv, hrest⟩ := hreads
  rw [read, readWithin]
  dsimp only
  rw [hr]
  dsimp only
  rw [hrest, hv]
  rfl

/-! ## Documents -/

/-- A document whose compact text is the content of a file is the document in that file. -/
theorem ofFile_compact {files : FileView} {path : String} {document : Json}
    (hfile : files.find path = .file document.compact.toUTF8)
    (h : Readable nestingLimit document) : Document.ofFile files path = .ok document := by
  have hutf8 : String.fromUTF8? document.compact.toUTF8 = some document.compact := by
    rw [String.fromUTF8?, dif_pos]
    rfl
  unfold Document.ofFile
  rw [hfile]
  dsimp only
  rw [hutf8]
  dsimp only
  rw [Document.ofText, read_compact h]
  rfl

end Json

end FieldMask
