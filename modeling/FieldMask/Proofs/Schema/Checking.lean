import FieldMask.Proofs.Schema.Reading
import FieldMask.Schema.Validation

/-!
# Checking against a schema

The rules that are read off a legible schema of a grounded document find an error just if a keyword
of the schema does not hold: a value has no errors if and only if the schema accepts it
(`decides`). Looking a reference up never gets to where no more references are followed,
since each that leads on from its target ranks below it.

An error about unexpected members at the place of the value itself comes from a keyword of the
schema that closes objects (`unexpected_iff`).
-/

namespace FieldMask

open Schema

namespace Validation

variable {c : Comparison} {document v : Json} {known : String → Prop} {rank : String → Nat}
  {bound : Nat} {s : Schema} {k : Keyword} {rule : Rule} {rules : List Rule} {place : Pointer}
  {e : SchemaError}

/-! ## Rules and keywords -/

/-- A rule that stands for a keyword is checked alike however many references were followed. -/
theorem ruleErrors_of_gives (h : k.Gives document rule) (followed : Nat) :
    ruleErrors c document followed place v rule = ruleErrors c document 0 place v rule := by
  rw [ruleErrors.eq_def, ruleErrors.eq_def c document 0]
  cases h <;> rfl

/-- The rules at a known reference cover what it leads to. -/
theorem covers_rulesAt (hg : Grounded document known rank) {text : String} (hk : known text)
    {target : Json} (ht : Reference.resolve document text = .ok target) :
    Covers document known rank (rank text) (ofJson target) (rulesAt document text) := by
  obtain ⟨_, ht', -, hlegible, hrank⟩ := hg.leads hk
  obtain rfl := Except.ok.inj (ht.symm.trans ht')
  obtain ⟨rules, met, hrun, hcovers⟩ :=
    read_covers hg hlegible hrank document.referenceTexts.length []
  have heq : rulesAt document text = rules := by
    rw [rulesAt, ht]
    show ((ofJson target).rules document).toOption.getD [] = _
    rw [Schema.rules, hrun]
    rfl
  rwa [heq]

/-- Every error is one of a rule that stands for a keyword of the schema. -/
theorem exists_has_of_mem_errors (hg : Grounded document known rank) {followed : Nat}
    (hc : Covers document known rank bound s rules)
    (hb : followed + bound ≤ document.referenceTexts.length)
    (he : e ∈ errors c document followed rules place v) :
    ∃ k rule, s.Has document k ∧ k.Gives document rule ∧
      e ∈ ruleErrors c document 0 place v rule := by
  induction bound using Nat.strongRecOn generalizing s rules followed with
  | ind bound ih =>
    rw [errors] at he
    obtain ⟨rule, hrule, he⟩ := List.mem_flatMap.1 he
    rcases hc.stands rule hrule with ⟨k, hk, hgives⟩ | ⟨text, target, rfl, hknown, hrank, ht, hsub⟩
    · rw [ruleErrors_of_gives hgives] at he
      exact ⟨k, rule, hk, hgives, he⟩
    · have hcovers := covers_rulesAt hg hknown ht
      rw [ruleErrors, if_pos (by omega)] at he
      obtain ⟨k, rule, hk, hgives, he⟩ := ih (rank text) hrank hcovers (by omega) he
      exact ⟨k, rule, hsub k hk, hgives, he⟩

/-- For every keyword of the schema the errors of a rule that stands for it are reported. -/
theorem exists_gives_of_has (hg : Grounded document known rank)
    (hc : Covers document known rank bound s rules) {followed : Nat}
    (hb : followed + bound ≤ document.referenceTexts.length) (hk : s.Has document k)
    (place : Pointer) (v : Json) :
    ∃ rule, k.Gives document rule ∧
      ∀ e ∈ ruleErrors c document 0 place v rule, e ∈ errors c document followed rules place v := by
  induction bound using Nat.strongRecOn generalizing s rules followed with
  | ind bound ih =>
    rcases hc.finds k hk with ⟨rule, hrule, hgives⟩ | ⟨text, target, hmem, ht, htarget⟩
    · refine ⟨rule, hgives, fun e he => ?_⟩
      rw [errors]
      exact List.mem_flatMap.2 ⟨rule, hrule, ruleErrors_of_gives hgives followed ▸ he⟩
    · have hlooks : known text ∧ rank text < bound := by
        rcases hc.stands _ hmem with ⟨k, -, hgives⟩ | ⟨text', _, heq, hknown, hrank, -⟩
        · cases hgives
        · obtain rfl := Rule.follow.inj heq
          exact ⟨hknown, hrank⟩
      have hcovers := covers_rulesAt hg hlooks.1 ht
      have hnext : followed + 1 + rank text ≤ document.referenceTexts.length := by omega
      obtain ⟨rule, hgives, hall⟩ := ih (rank text) hlooks.2 hcovers hnext htarget
      refine ⟨rule, hgives, fun e he => ?_⟩
      rw [errors]
      refine List.mem_flatMap.2 ⟨_, hmem, ?_⟩
      rw [ruleErrors, if_pos (by omega)]
      exact hall e he

/-! ## Members and items -/

theorem expect_eq_nil {holds : Bool} {violation : Violation} :
    expect holds place violation = [] ↔ holds = true := by
  cases holds <;> simp [expect]

theorem memberErrors_eq_nil {listed : List (String × List Rule)} {others : List Rule}
    {members : Members} :
    memberErrors c document listed others place members = [] ↔
      ∀ m ∈ members, errors c document 0 ((listed.lookup m.1).getD others) (place.child m.1) m.2
        = [] := by
  induction members with
  | nil => simp [memberErrors]
  | cons m rest ih =>
    obtain ⟨name, w⟩ := m
    rw [memberErrors, List.append_eq_nil_iff, ih, List.forall_mem_cons]

theorem unexpectedErrors_eq_nil {listed : List (String × List Rule)} {members : Members} :
    unexpectedErrors place members listed = [] ↔
      ∀ m ∈ members, Keyed.contains listed m.1 = true := by
  rw [unexpectedErrors]
  split
  · rename_i h
    refine ⟨fun _ m hm => ?_, fun _ => rfl⟩
    have := List.filter_eq_nil_iff.1 h m.1 (Keyed.mem_keys_of_mem hm)
    simpa using this
  · rename_i h
    refine ⟨nofun, fun hall => absurd ?_ h⟩
    refine List.filter_eq_nil_iff.2 fun name hname => ?_
    obtain ⟨m, hm, rfl⟩ := List.mem_map.1 hname
    simp [hall m hm]

theorem itemErrors_eq_nil {each : Nat → List Rule} {items : List Json} {index : Nat} :
    itemErrors c document each place index items = [] ↔
      ∀ i (h : i < items.length),
        errors c document 0 (each (index + i)) (place.item (index + i)) items[i] = [] := by
  induction items generalizing index with
  | nil => simp [itemErrors]
  | cons x xs ih =>
    rw [itemErrors, List.append_eq_nil_iff, ih]
    constructor
    · rintro ⟨hx, hxs⟩ i hi
      cases i with
      | zero => exact hx
      | succ i =>
        have := hxs i (Nat.lt_of_succ_lt_succ hi)
        rwa [Nat.add_right_comm, Nat.add_assoc] at this
    · intro h
      refine ⟨h 0 (Nat.zero_lt_succ _), fun i hi => ?_⟩
      have := h (i + 1) (Nat.succ_lt_succ hi)
      rwa [← Nat.add_assoc, Nat.add_right_comm] at this

/-! ## No errors -/

/-- Rules that are read off legible schemas find no error in a value just if these accept it. -/
def Decides (c : Comparison) (document : Json) (known : String → Prop) (w : Json) : Prop :=
  ∀ {s : Schema} {rules : List Rule} (place : Pointer), s.Legible known → s.Reads document rules →
    (errors c document 0 rules place w = [] ↔ s.Accepts c.equality document w)

theorem properties_eq_nil {members : List (String × Schema)} {listed : List (String × List Rule)}
    (hrel : Keyed.Related (fun _ s rules => s.Reads document rules) members listed)
    (hl : ∀ e ∈ members, e.2.Legible known)
    (ih : ∀ w, sizeOf w < sizeOf v → Decides c document known w) :
    ruleErrors c document 0 place v (.properties listed) = [] ↔
      ∀ e ∈ members, ∀ w, v.get? e.1 = some w → e.2.Accepts c.equality document w := by
  rw [ruleErrors, List.flatMap_eq_nil_iff]
  constructor
  · intro h e he w hw
    obtain ⟨⟨_, rules⟩, hmem, rfl, hr⟩ := exists_right_of_mem hrel he
    have hnil := h _ hmem
    dsimp only at hnil
    split at hnil
    · rename_i w' hw'
      obtain rfl := Option.some.inj (hw.symm.trans hw')
      exact (ih w (Json.sizeOf_get?_lt hw) _ (hl e he) hr).1 hnil
    · rename_i hnone
      cases hnone.symm.trans hw
  · rintro h ⟨_, rules⟩ hmem
    obtain ⟨e, he, rfl, hr⟩ := exists_left_of_mem hrel hmem
    dsimp only
    split
    · rename_i w hw
      exact (ih w (Json.sizeOf_get?_lt hw) _ (hl e he) hr).2 (h e he w hw)
    · rfl

/-- What the rules for the members of an object find in one of them. -/
theorem member_eq_nil {members : List (String × Schema)} {listed : List (String × List Rule)}
    (hrel : Keyed.Related (fun _ s rules => s.Reads document rules) members listed)
    (hl : ∀ e ∈ members, e.2.Legible known) {name : String} {w : Json}
    (ih : Decides c document known w) {s : Schema} (hs : members.lookup name = some s)
    (others : List Rule) :
    errors c document 0 ((listed.lookup name).getD others) (place.child name) w = [] ↔
      s.Accepts c.equality document w := by
  rcases hrel.lookup name with ⟨hnone, -⟩ | ⟨s', rules, hs', hrules, hreads⟩
  · cases hnone.symm.trans hs
  · obtain rfl := Option.some.inj (hs.symm.trans hs')
    rw [hrules]
    exact ih _ (hl _ (Keyed.mem_of_lookup hs)) hreads

theorem closed_eq_nil {members : List (String × Schema)} {listed : List (String × List Rule)}
    (hrel : Keyed.Related (fun _ s rules => s.Reads document rules) members listed)
    (hl : ∀ e ∈ members, e.2.Legible known) {given : Members}
    (ih : ∀ m ∈ given, Decides c document known m.2) :
    ruleErrors c document 0 place (.obj given) (.closed listed) = [] ↔
      ∀ m ∈ given, ∃ s, members.lookup m.1 = some s ∧ s.Accepts c.equality document m.2 := by
  rw [ruleErrors, List.append_eq_nil_iff, memberErrors_eq_nil, unexpectedErrors_eq_nil,
    ← forall₂_and]
  refine forall₂_congr fun m hm => ?_
  rw [Keyed.contains_iff, ← hrel.keys_eq, ← Keyed.contains_iff, Keyed.contains,
    Option.isSome_iff_exists]
  constructor
  · rintro ⟨herrors, s, hs⟩
    exact ⟨s, hs, (member_eq_nil hrel hl (ih m hm) hs []).1 herrors⟩
  · rintro ⟨s, hs, haccepts⟩
    exact ⟨(member_eq_nil hrel hl (ih m hm) hs []).2 haccepts, s, hs⟩

theorem additional_eq_nil {members : List (String × Schema)} {listed : List (String × List Rule)}
    (hrel : Keyed.Related (fun _ s rules => s.Reads document rules) members listed)
    (hl : ∀ e ∈ members, e.2.Legible known) {others : Schema} (ho : others.Legible known)
    (hr : others.Reads document rules) {given : Members}
    (ih : ∀ m ∈ given, Decides c document known m.2) :
    ruleErrors c document 0 place (.obj given) (.additional listed rules) = [] ↔
      ∀ m ∈ given, ((members.lookup m.1).getD others).Accepts c.equality document m.2 := by
  rw [ruleErrors, memberErrors_eq_nil]
  refine forall₂_congr fun m hm => ?_
  rcases hrel.lookup m.1 with ⟨hs, hrules⟩ | ⟨s, _, hs, -, -⟩
  · rw [hs, hrules]
    exact ih m hm _ ho hr
  · rw [hs]
    exact member_eq_nil hrel hl (ih m hm) hs rules

theorem items_eq_nil (hs : s.Legible known) (hr : s.Reads document rules) {items : List Json}
    (ih : ∀ x ∈ items, Decides c document known x) :
    ruleErrors c document 0 place (.arr items) (.items rules) = [] ↔
      ∀ x ∈ items, s.Accepts c.equality document x := by
  rw [ruleErrors, itemErrors_eq_nil, List.forall_mem_iff_forall_getElem]
  exact forall₂_congr fun i hi => ih _ (List.getElem_mem hi) _ hs hr

theorem itemList_eq_nil {schemas : List Schema} {each : List (List Rule)}
    (hrel : List.Forall₂ (Schema.Reads document) schemas each)
    (hl : ∀ s ∈ schemas, s.Legible known) {items : List Json}
    (ih : ∀ x ∈ items, Decides c document known x) :
    ruleErrors c document 0 place (.arr items) (.itemList each) = [] ↔
      ∀ p ∈ items.zip schemas, p.2.Accepts c.equality document p.1 := by
  have hnone (w : Json) (place : Pointer) : errors c document 0 [] place w = [] := by
    rw [errors, List.flatMap_nil]
  have hrec : ∀ (index : Nat) (rules : Nat → List Rule),
      (∀ i, rules (index + i) = each.getD i []) →
      (itemErrors c document rules place index items = [] ↔
        ∀ p ∈ items.zip schemas, p.2.Accepts c.equality document p.1) := by
    induction hrel generalizing items with
    | nil =>
      intro index rules hrules
      rw [itemErrors_eq_nil]
      simp [hrules, hnone]
    | @cons s given schemas each hs _ ih' =>
      intro index rules hrules
      cases items with
      | nil => simp [itemErrors]
      | cons x xs =>
        obtain ⟨hls, hl⟩ := List.forall_mem_cons.1 hl
        obtain ⟨hx, hxs⟩ := List.forall_mem_cons.1 ih
        have hfirst : rules index = given := hrules 0
        have hrest : ∀ i, rules (index + 1 + i) = each.getD i [] := fun i => by
          rw [Nat.add_right_comm, Nat.add_assoc, hrules (i + 1), List.getD_cons_succ]
        rw [itemErrors, List.append_eq_nil_iff, ih' hl hxs (index + 1) rules hrest, hfirst,
          hx _ hls hs, List.zip_cons_cons, List.forall_mem_cons]
  rw [ruleErrors]
  exact hrec 0 _ fun i => by rw [Nat.zero_add]

/-- A rule that stands for a legible keyword finds no error just if the keyword holds. -/
theorem ruleErrors_eq_nil (place : Pointer) (hgives : k.Gives document rule) (hl : k.Legible known)
    (ih : ∀ w, sizeOf w < sizeOf v → Decides c document known w) :
    ruleErrors c document 0 place v rule = [] ↔ k.Holds c.equality document v := by
  have hmembers {given : Members} (hv : v = .obj given) :
      ∀ m ∈ given, Decides c document known m.2 := fun m hm =>
    ih m.2 (hv ▸ Json.sizeOf_lt_of_mem_members hm)
  have hitems {items : List Json} (hv : v = .arr items) : ∀ x ∈ items, Decides c document known x :=
    fun x hx => ih x (hv ▸ Json.sizeOf_lt_of_mem_items hx)
  rw [Keyword.Holds.eq_def]
  cases hgives with
  | type wanted | types wanted =>
    rw [ruleErrors, wholeErrors, expect_eq_nil]
    all_goals
      intros
      contradiction
  | choices values =>
    rw [ruleErrors, wholeErrors, expect_eq_nil]
    · exact List.any_eq_true
    all_goals
      intros
      contradiction
  | properties hrel =>
    cases hl with
    | properties hl => exact properties_eq_nil hrel hl ih
  | closed hrel =>
    cases hl with
    | closed hl =>
      cases v with
      | obj given => simpa using closed_eq_nil hrel hl (hmembers rfl)
      | _ => simp [ruleErrors]
  | additional hrel hr =>
    cases hl with
    | additional hl ho =>
      cases v with
      | obj given => simpa using additional_eq_nil hrel hl ho hr (hmembers rfl)
      | _ => simp [ruleErrors]
  | items hr =>
    cases hl with
    | items hl =>
      cases v with
      | arr items => simpa using items_eq_nil hl hr (hitems rfl)
      | _ => simp [ruleErrors]
  | itemList hrel =>
    cases hl with
    | itemList hl =>
      cases v with
      | arr items => simpa using itemList_eq_nil hrel hl (hitems rfl)
      | _ => simp [ruleErrors]
  | memberless =>
    cases v with
    | obj given => cases given <;> simp [ruleErrors, wholeErrors, Json.members?]
    | _ => simp [ruleErrors, wholeErrors, Json.members?]
  | required names =>
    cases v with
    | obj given => simp [ruleErrors, wholeErrors, Json.members?, Keyed.contains_iff]
    | _ => simp [ruleErrors, wholeErrors, Json.members?]
  | leastItems count | mostItems count | uniqueItems =>
    cases v <;> simp [ruleErrors, wholeErrors, Json.items?, expect_eq_nil, Comparison.equality]

/-- **A value has no errors just if the schema accepts it**, whatever rules were read off it. -/
theorem decides (hg : Grounded document known rank) (v : Json) : Decides c document known v := by
  intro s rules place hs hr
  have hc := hr.covers hg hs
  have hb : 0 + document.referenceTexts.length ≤ document.referenceTexts.length := by omega
  have ih : ∀ w, sizeOf w < sizeOf v → Decides c document known w :=
    fun w _ => decides hg w
  rw [accepts_iff]
  constructor
  · intro herrors k hk
    obtain ⟨rule, hgives, hall⟩ := exists_gives_of_has hg hc hb hk place v
    refine (ruleErrors_eq_nil place hgives (hg.legible_of_has hs hk) ih).1 ?_
    exact List.eq_nil_iff_forall_not_mem.2 fun e he => List.not_mem_nil (herrors ▸ hall e he)
  · intro h
    refine List.eq_nil_iff_forall_not_mem.2 fun e he => ?_
    obtain ⟨k, rule, hk, hgives, he⟩ := exists_has_of_mem_errors hg hc hb he
    have hnil := (ruleErrors_eq_nil place hgives (hg.legible_of_has hs hk) ih).2 (h k hk)
    exact List.not_mem_nil (hnil ▸ he)
termination_by sizeOf v

/-! ## Where errors are -/

/-- The error is about the value at the place or a part of it. -/
def Within (place : Pointer) (e : SchemaError) : Prop :=
  ∃ more, e.place.segments = place.segments ++ more

theorem Within.of_child {name : String} (h : Within (place.child name) e) : Within place e := by
  obtain ⟨more, h⟩ := h
  exact ⟨name :: more, by rw [h, Pointer.child, List.append_assoc]; rfl⟩

theorem Within.place_ne {name : String} (h : Within (place.child name) e) : e.place ≠ place := by
  obtain ⟨more, h⟩ := h
  intro heq
  rw [heq, Pointer.child, List.append_assoc] at h
  have := congrArg List.length h
  simp at this

/-- The error is about the value at the place as a whole, and not about unexpected members. -/
def About (place : Pointer) (e : SchemaError) : Prop :=
  e.place = place ∧ ∀ names, e.violation ≠ .unexpectedMembers names

theorem about_of_mem_expect {holds : Bool} {violation : Violation}
    (h : e ∈ expect holds place violation) (hv : ∀ names, violation ≠ .unexpectedMembers names) :
    About place e := by
  cases holds with
  | false =>
    obtain rfl := List.mem_singleton.1 h
    exact ⟨rfl, hv⟩
  | true => cases h

theorem about_of_mem_wholeErrors (h : e ∈ wholeErrors c place v rule) : About place e := by
  cases rule with
  | type wanted | types wanted | choices values =>
    exact about_of_mem_expect h nofun
  | required names =>
    rw [wholeErrors] at h
    split at h
    · obtain ⟨_, -, rfl⟩ := List.mem_map.1 h
      exact ⟨rfl, nofun⟩
    · cases h
  | memberless =>
    rw [wholeErrors] at h
    split at h
    · obtain rfl := List.mem_singleton.1 h
      exact ⟨rfl, nofun⟩
    · cases h
  | leastItems count | mostItems count | uniqueItems =>
    rw [wholeErrors] at h
    split at h
    · exact about_of_mem_expect h nofun
    · cases h
  | refuse =>
    obtain rfl := List.mem_singleton.1 h
    exact ⟨rfl, nofun⟩
  | _ => cases h

theorem mem_unexpectedErrors {listed : List (String × List Rule)} {members : Members} :
    e ∈ unexpectedErrors place members listed ↔
      ∃ names, names = (Keyed.keys members).filter (fun n => !Keyed.contains listed n) ∧
        names ≠ [] ∧ e = ⟨place, .unexpectedMembers names⟩ := by
  rw [unexpectedErrors]
  split
  · rename_i h
    simp [h]
  · rename_i h
    constructor
    · exact fun he => ⟨_, rfl, h, List.mem_singleton.1 he⟩
    · exact fun ⟨_, hn, _, he⟩ => hn ▸ he ▸ List.mem_singleton_self _

/-- Every error is about the value or a part of it, those of members and items about a part. -/
theorem within_of_mem (c : Comparison) (document : Json) :
    (∀ followed rules place v, ∀ e ∈ errors c document followed rules place v, Within place e) ∧
    (∀ followed place v rule, ∀ e ∈ ruleErrors c document followed place v rule, Within place e) ∧
    (∀ each place index items, ∀ e ∈ itemErrors c document each place index items,
      ∃ name, Within (place.child name) e) ∧
    ∀ listed others place members, ∀ e ∈ memberErrors c document listed others place members,
      ∃ name, Within (place.child name) e := by
  have below {place : Pointer} {e : SchemaError} (h : ∃ name, Within (place.child name) e) :
      Within place e := h.elim fun _ h => h.of_child
  have whole {place : Pointer} {v : Json} {rule : Rule} {e : SchemaError}
      (h : e ∈ wholeErrors c place v rule) : Within place e :=
    ⟨[], by rw [(about_of_mem_wholeErrors h).1, List.append_nil]⟩
  apply errors.mutual_induct document
    (fun followed rules place v => ∀ e ∈ errors c document followed rules place v, Within place e)
    (fun followed place v rule => ∀ e ∈ ruleErrors c document followed place v rule, Within place e)
    (fun each place index items => ∀ e ∈ itemErrors c document each place index items,
      ∃ name, Within (place.child name) e)
    (fun listed others place members =>
      ∀ e ∈ memberErrors c document listed others place members,
        ∃ name, Within (place.child name) e)
  case case1 =>
    intro followed rules place v ih e he
    rw [errors] at he
    obtain ⟨rule, -, he⟩ := List.mem_flatMap.1 he
    exact ih rule e he
  case case2 =>
    intro followed place v listed ih e he
    rw [ruleErrors] at he
    obtain ⟨⟨name, rules⟩, -, he⟩ := List.mem_flatMap.1 he
    dsimp only at he
    split at he
    · rename_i w hw
      exact (ih name rules w hw e he).of_child
    · cases he
  case case3 =>
    intro followed place listed members ih e he
    rw [ruleErrors] at he
    rcases List.mem_append.1 he with he | he
    · exact below (ih e he)
    · obtain ⟨names, -, -, rfl⟩ := mem_unexpectedErrors.1 he
      exact ⟨[], (List.append_nil _).symm⟩
  case case5 =>
    intro followed place listed others members ih e he
    rw [ruleErrors] at he
    exact below (ih e he)
  case case7 | case9 =>
    intro followed place rules items ih e he
    rw [ruleErrors] at he
    exact below (ih e he)
  case case11 =>
    intro followed place v text hlt ih e he
    rw [ruleErrors, if_pos hlt] at he
    exact ih e he
  case case12 =>
    intro followed place v text hlt e he
    rw [ruleErrors, if_neg hlt] at he
    cases he
  case case13 =>
    intro followed place v rule h₁ h₂ h₃ h₄ h₅ h₆ e he
    rw [ruleErrors] at he
    · exact whole he
    all_goals assumption
  case case15 =>
    intro each place index x xs ihx ihxs e he
    rw [itemErrors] at he
    rcases List.mem_append.1 he with he | he
    · exact ⟨_, ihx e he⟩
    · exact ihxs e he
  case case17 =>
    intro listed others place name w rest ihw ihrest e he
    rw [memberErrors] at he
    rcases List.mem_append.1 he with he | he
    · exact ⟨_, ihw e he⟩
    · exact ihrest e he
  -- no error is found where there is nothing of the kind that the rule is about
  case case14 | case16 =>
    intros
    simp_all [itemErrors, memberErrors]
  all_goals
    intros
    simp_all [ruleErrors]

/-- The members of an object that a keyword which closes objects does not list. -/
def unlisted (members : List (String × Schema)) (given : Members) : List String :=
  (Keyed.keys given).filter fun n => !Keyed.contains members n

theorem unlisted_eq {members : List (String × Schema)} {listed : List (String × List Rule)}
    (hrel : Keyed.Related (fun _ s rules => s.Reads document rules) members listed)
    (given : Members) :
    (Keyed.keys given).filter (fun n => !Keyed.contains listed n) = unlisted members given := by
  have h : Keyed.contains listed = Keyed.contains members := by
    funext n
    rw [Bool.eq_iff_iff, Keyed.contains_iff, Keyed.contains_iff, hrel.keys_eq]
  rw [unlisted, h]

/-- No rule but one that closes objects is about unexpected members of the value itself. -/
theorem closed_of_unexpected (hgives : k.Gives document rule) {names : List String}
    (he : ⟨place, .unexpectedMembers names⟩ ∈ ruleErrors c document 0 place v rule) :
    ∃ members given, k = .closed members ∧ v = .obj given ∧ names ≠ [] ∧
      names = unlisted members given := by
  obtain ⟨herrors, -, hitems, hmembers⟩ := within_of_mem c document
  have not_part {name : String} (h : Within (place.child name) ⟨place, .unexpectedMembers names⟩) :
      False := h.place_ne rfl
  have not_whole {rule : Rule}
      (h : ⟨place, .unexpectedMembers names⟩ ∈ wholeErrors c place v rule) : False :=
    (about_of_mem_wholeErrors h).2 names rfl
  cases hgives with
  | properties hrel =>
    rw [ruleErrors] at he
    obtain ⟨⟨name, rules⟩, -, he⟩ := List.mem_flatMap.1 he
    dsimp only at he
    split at he
    · exact (not_part (herrors _ _ _ _ _ he)).elim
    · cases he
  | @closed members listed hrel =>
    cases v with
    | obj given =>
      rw [ruleErrors] at he
      rcases List.mem_append.1 he with he | he
      · obtain ⟨name, hwithin⟩ := hmembers _ _ _ _ _ he
        exact (not_part hwithin).elim
      · obtain ⟨names', heq, hne, h⟩ := mem_unexpectedErrors.1 he
        obtain ⟨-, h⟩ := SchemaError.mk.inj h
        obtain rfl := Violation.unexpectedMembers.inj h
        exact ⟨members, given, rfl, rfl, hne, heq.trans (unlisted_eq hrel given)⟩
    | _ => simp [ruleErrors] at he
  | additional =>
    cases v with
    | obj given =>
      rw [ruleErrors] at he
      obtain ⟨name, hwithin⟩ := hmembers _ _ _ _ _ he
      exact (not_part hwithin).elim
    | _ => simp [ruleErrors] at he
  | items | itemList =>
    cases v with
    | arr items =>
      rw [ruleErrors] at he
      obtain ⟨name, hwithin⟩ := hitems _ _ _ _ _ he
      exact (not_part hwithin).elim
    | _ => simp [ruleErrors] at he
  | _ =>
    rw [ruleErrors] at he
    · exact (not_whole he).elim
    all_goals
      intros
      contradiction

/--
**An error about unexpected members of the value itself** comes from a keyword that closes objects:
it names the members of the value that the keyword does not list.
-/
theorem unexpected_iff (hg : Grounded document known rank) (hs : s.Legible known)
    (hr : s.Reads document rules) (place : Pointer) {names : List String} :
    ⟨place, .unexpectedMembers names⟩ ∈ errors c document 0 rules place v ↔
      ∃ members given, s.Has document (.closed members) ∧ v = .obj given ∧ names ≠ [] ∧
        names = unlisted members given := by
  have hc := hr.covers hg hs
  have hb : 0 + document.referenceTexts.length ≤ document.referenceTexts.length := by omega
  constructor
  · intro he
    obtain ⟨k, rule, hk, hgives, he⟩ := exists_has_of_mem_errors hg hc hb he
    obtain ⟨members, given, rfl, hv, hne, hnames⟩ := closed_of_unexpected hgives he
    exact ⟨members, given, hk, hv, hne, hnames⟩
  · rintro ⟨members, given, hk, rfl, hne, hnames⟩
    obtain ⟨rule, hgives, hall⟩ := exists_gives_of_has hg hc hb hk place (.obj given)
    cases hgives with
    | closed hrel =>
      refine hall _ ?_
      rw [ruleErrors]
      refine List.mem_append_right _ (mem_unexpectedErrors.2 ⟨names, ?_, hne, rfl⟩)
      rw [hnames, unlisted_eq hrel]

end Validation

/-! ## The outcome of a check -/

section Outcome

variable {c : Comparison} {document : Json} {known : String → Prop} {rank : String → Nat}

/-- Checking against a legible schema ends in the errors that rules read off it find. -/
theorem exists_errors (hg : Grounded document known rank)
    (hs : (ofJson document).Legible known) (v : Json) :
    ∃ rules, (ofJson document).Reads document rules ∧
      (Validation.errors c document 0 rules .root v = [] ∧ validateRules document v c = .ok () ∨
        Validation.errors c document 0 rules .root v ≠ [] ∧
          validateRules document v c
            = .error (.invalid (Validation.errors c document 0 rules .root v))) := by
  obtain ⟨rules, hrules, hr⟩ := hs.exists_rules hg
  refine ⟨rules, hr, ?_⟩
  cases h : Validation.errors c document 0 rules .root v with
  | nil =>
    refine .inl ⟨rfl, ?_⟩
    simp [validateRules, hrules, h]
  | cons e rest =>
    refine .inr ⟨List.cons_ne_nil e rest, ?_⟩
    simp only [validateRules, hrules, Except.mapError, bind_ok, h]
    rfl

theorem validateRules_eq_ok_iff (hg : Grounded document known rank)
    (hs : (ofJson document).Legible known) {v : Json} :
    validateRules document v c = .ok () ↔ (ofJson document).Accepts c.equality document v := by
  obtain ⟨rules, hr, hcases⟩ := exists_errors hg hs v
  rw [← Validation.decides hg v .root hs hr]
  rcases hcases with ⟨hnil, hok⟩ | ⟨hne, herror⟩
  · exact iff_of_true hok hnil
  · exact iff_of_false (fun h => nomatch herror.symm.trans h) hne

/-- A value that is not accepted has errors. -/
theorem exists_invalid (hg : Grounded document known rank) (hs : (ofJson document).Legible known)
    {v : Json} (h : ¬(ofJson document).Accepts c.equality document v) :
    ∃ errors, validateRules document v c = .error (.invalid errors) := by
  obtain ⟨rules, hr, ⟨-, hok⟩ | ⟨-, herror⟩⟩ := exists_errors hg hs v
  · exact absurd ((validateRules_eq_ok_iff hg hs).1 hok) h
  · exact ⟨_, herror⟩

/-- The errors about unexpected members of the whole value. -/
theorem exists_unexpected_iff (hg : Grounded document known rank)
    (hs : (ofJson document).Legible known) {v : Json} {names : List String} :
    (∃ errors, validateRules document v c = .error (.invalid errors) ∧
        ⟨.root, .unexpectedMembers names⟩ ∈ errors) ↔
      ∃ members given, (ofJson document).Has document (.closed members) ∧ v = .obj given ∧
        names ≠ [] ∧ names = Validation.unlisted members given := by
  obtain ⟨rules, hr, hcases⟩ := exists_errors hg hs v
  rw [← Validation.unexpected_iff hg hs hr .root]
  rcases hcases with ⟨hnil, hok⟩ | ⟨-, herror⟩
  · refine iff_of_false (fun ⟨_, herror, _⟩ => nomatch hok.symm.trans herror) ?_
    rw [hnil]
    exact List.not_mem_nil
  · constructor
    · rintro ⟨errors, herror', hmem⟩
      obtain rfl := ValidateError.invalid.inj (Except.error.inj (herror.symm.trans herror'))
      exact hmem
    · exact fun hmem => ⟨_, herror, hmem⟩

end Outcome

end FieldMask
